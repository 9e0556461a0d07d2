import Columnar.Ingest.Accumulator
import Columnar.Proofs.Ingest.Buffers
import Columnar.Proofs.Ingest.Dominance
import Columnar.Proofs.Sparse.Encoding

/-!
# Accumulating cells

An accumulator never loses a cell, whichever storage it uses and whenever it changes it. Dense
storage is the buffer of the cells; sparse storage is their encoding against one of them; storage
that has reverted is a buffer of cells with the same keys, because encoding keeps one cell of each
key only (`Keeps`). Recording an accepted cell keeps it (`exists_record`), and sparse storage keeps
any cell.
-/

set_option autoImplicit false
set_option relaxedAutoImplicit false

namespace Columnar

/-- Options that have the first cell inspected, and any share of default rows will do. -/
def IngestOptions.sparseAtOnce : IngestOptions := { checkRows := 1, minSparsity := 0 }

variable {C : Type} [Tracked C]

theorem Tracked.sameKey_iff {first second : C} :
    Tracked.sameKey first second ↔ Tracked.key first = Tracked.key second := by
  simp [Tracked.sameKey]

namespace Deltas

/-- Decoding gives every cell back, or the default of the same key. -/
theorem toList_encode (default : C) (cells : List C) :
    (encode default cells).toList cells.length =
      cells.map fun cell ↦ if Tracked.sameKey cell default then default else cell := by
  rw [← spread_deviations]
  rfl

theorem map_key_toList_encode (default : C) (cells : List C) :
    ((encode default cells).toList cells.length).map Tracked.key = cells.map Tracked.key := by
  rw [toList_encode, List.map_map]
  apply List.map_congr_left
  intro cell _
  simp only [Function.comp_apply]
  split
  · next hsame => exact (Tracked.sameKey_iff.mp hsame).symm
  · rfl

end Deltas

/-- The attempt leads to this state, and fails only because that state lacks room. -/
def Attempt.LeadsTo {S : Type} (attempt : Attempt S Unit) (next : S) (lacksRoom : S → Prop) :
    Prop :=
  attempt = .done () next ∨ attempt = .refused .tooLarge next ∧ lacksRoom next

theorem Attempt.LeadsTo.state_eq {S : Type} {attempt : Attempt S Unit} {next : S}
    {lacksRoom : S → Prop} (h : attempt.LeadsTo next lacksRoom) : attempt.state = next := by
  rcases h with rfl | ⟨rfl, -⟩
  · rfl
  · rfl

theorem Attempt.LeadsTo.within {S T : Type} {attempt : Attempt S Unit} {next : S}
    {lacksRoom : S → Prop} (h : attempt.LeadsTo next lacksRoom) (wrap : S → T)
    {wrapLacksRoom : T → Prop} (hroom : lacksRoom next → wrapLacksRoom (wrap next)) :
    (attempt.within wrap).LeadsTo (wrap next) wrapLacksRoom := by
  rcases h with rfl | ⟨rfl, hlacks⟩
  · exact .inl rfl
  · exact .inr ⟨rfl, hroom hlacks⟩

namespace AccumulatorStorage

/-- What storage keeps of the cells. -/
inductive Keeps (cells : List C) : AccumulatorStorage C → Prop
  | dense : Keeps cells (.dense (Tracked.appendAll Tracked.emptyBuffer cells))
  | sparse {default : C} (hdefault : default ∈ cells) :
    Keeps cells (.sparse (.encode default cells))
  | reverted {kept : List C} (hkeys : kept.map Tracked.key = cells.map Tracked.key) :
    Keeps cells (.reverted (Tracked.appendAll Tracked.emptyBuffer kept))

/-- Sparse storage keeps any cell after those before, whether a buffer would accept it or not. -/
theorem exists_record_sparse {default : C} {cells : List C} (hdefault : default ∈ cells)
    (cell : C) :
    ∃ deltas : Deltas C, record (.sparse (.encode default cells)) cells.length cell =
        .done () (.sparse deltas) ∧ deltas.default = default ∧
      Keeps (cells ++ [cell]) (.sparse deltas) := by
  have hencode : Keeps (cells ++ [cell]) (.sparse (.encode default (cells ++ [cell]))) :=
    .sparse (List.mem_append_left _ hdefault)
  unfold Deltas.encode at hencode ⊢
  rw [deviations_append_singleton] at hencode
  unfold record
  by_cases hsame : Tracked.sameKey cell default
  · rw [if_pos hsame, List.append_nil] at hencode
    exact ⟨_, if_pos hsame, rfl, hencode⟩
  · rw [if_neg hsame] at hencode
    refine ⟨_, if_neg hsame, rfl, ?_⟩
    simpa using hencode

/-- An accepted cell is kept after those before. -/
theorem exists_record {storage : AccumulatorStorage C} {cells : List C} {cell : C}
    (h : Keeps cells storage) (haccepts : Tracked.Accepts cell) :
    ∃ next, storage.record cells.length cell = .done () next ∧ Keeps (cells ++ [cell]) next := by
  have happend (kept : List C) :
      Tracked.append (Tracked.appendAll Tracked.emptyBuffer kept) cell =
        .done () (Tracked.appendAll Tracked.emptyBuffer (kept ++ [cell])) := by
    rw [Tracked.appendAll_append]
    exact haccepts _
  cases h with
  | dense => exact ⟨_, by rw [record, happend]; rfl, .dense⟩
  | @reverted kept hkeys =>
    refine ⟨_, by rw [record, happend]; rfl, .reverted ?_⟩
    rw [List.map_append, List.map_append, hkeys]
  | sparse hdefault =>
    obtain ⟨deltas, hrecord, -, hkeeps⟩ := exists_record_sparse hdefault cell
    exact ⟨_, hrecord, hkeeps⟩

end AccumulatorStorage

namespace Accumulator

/-- The accumulator was made with these options and was given these cells. -/
structure Holds (accumulator : Accumulator C) (options : IngestOptions) (cells : List C) :
    Prop where
  options_eq : accumulator.options = options
  size_eq : accumulator.size = cells.length
  keeps : accumulator.storage.Keeps cells

variable {accumulator : Accumulator C} {options : IngestOptions} {cells : List C}

/-- Sparse storage is an encoding of the cells against one of them. -/
theorem Holds.exists_eq_encode (h : accumulator.Holds options cells) {deltas : Deltas C}
    (hstorage : accumulator.storage = .sparse deltas) :
    ∃ default ∈ cells, deltas = .encode default cells := by
  have hkeeps := h.keeps
  rw [hstorage] at hkeeps
  cases hkeeps with
  | @sparse default hdefault => exact ⟨default, hdefault, rfl⟩

/-- The storage has to make room for all expected rows, and there is no such room: it was inspected
and stays dense, or it is sparse and no longer pays. -/
inductive LacksRoom (accumulator : Accumulator C) (valueBytes : Float) : Prop
  | inspected {buffer : Tracked.Buffer C} (hstorage : accumulator.storage = .dense buffer)
    (hsize : accumulator.size = max accumulator.options.checkRows 1)
    (hpays : ∀ default count, dominant? (Tracked.contents buffer) = some (default, count) →
      (⟨accumulator.size, count⟩ : Density).sparsePaysOff valueBytes
        accumulator.options.minSparsity = false)
    (hroom : Tracked.sizeLimit buffer < accumulator.options.expected) :
    LacksRoom accumulator valueBytes
  | outgrown {deltas : Deltas C} (hstorage : accumulator.storage = .sparse deltas)
    (hpays : accumulator.stillPays deltas valueBytes = false)
    (hroom : Tracked.sizeLimit (Tracked.emptyBuffer : Tracked.Buffer C) <
      accumulator.options.expected) : LacksRoom accumulator valueBytes

/-- Dense storage asks for room only when it is inspected. -/
theorem LacksRoom.size_eq {valueBytes : Float} (h : accumulator.LacksRoom valueBytes)
    (hstate : accumulator.state = .dense) :
    accumulator.size = max accumulator.options.checkRows 1 := by
  cases h with
  | inspected hstorage hsize hpays hroom => exact hsize
  | outgrown hstorage hpays hroom =>
    rw [state, hstorage] at hstate
    contradiction

/-- There is a buffer without room for the expected rows. -/
theorem LacksRoom.exists_sizeLimit_lt {valueBytes : Float}
    (h : accumulator.LacksRoom valueBytes) :
    ∃ buffer : Tracked.Buffer C, Tracked.sizeLimit buffer < accumulator.options.expected := by
  cases h with
  | inspected hstorage hsize hpays hroom => exact ⟨_, hroom⟩
  | outgrown hstorage hpays hroom => exact ⟨_, hroom⟩

/-- An accumulator can be made unless the cells before its inspection lack room. -/
theorem ofOptions_cases (C : Type) [Tracked C] (options : IngestOptions) :
    ofOptions options = .ok (⟨options, 0, .dense Tracked.emptyBuffer⟩ : Accumulator C) ∨
      ((ofOptions options : Outcome (Accumulator C)) = .error .tooLarge ∧
        Tracked.sizeLimit (Tracked.emptyBuffer : Tracked.Buffer C) <
          min options.expected options.checkRows) := by
  unfold ofOptions Tracked.withCapacity Word.requireRoom
  split
  · exact .inl rfl
  · next hroom => exact .inr ⟨rfl, Nat.lt_of_not_le hroom⟩

theorem ofOptions_of_room (hroom : min options.expected options.checkRows ≤
      Tracked.sizeLimit (Tracked.emptyBuffer : Tracked.Buffer C)) :
    ofOptions options = .ok (⟨options, 0, .dense Tracked.emptyBuffer⟩ : Accumulator C) := by
  rcases ofOptions_cases C options with hok | ⟨-, hnone⟩
  · exact hok
  · exact absurd hroom (Nat.not_le.mpr hnone)

/-- Room for one cell can always be made. -/
theorem ofOptions_of_one_row [LawfulTracked C] (hrows : options.checkRows = 1) :
    ofOptions options =
      .ok (⟨options, 0, .dense Tracked.emptyBuffer⟩ : Accumulator C) := by
  have hlimit := LawfulTracked.hasRoom (Tracked.emptyBuffer : Tracked.Buffer C)
  apply ofOptions_of_room
  rw [hrows]
  exact Nat.le_trans (Nat.min_le_right _ _) (Nat.le_trans (by decide) hlimit)

/-- The first cell is inspected at once when one row is to be checked. -/
theorem push_of_one_row [LawfulTracked C] {cell : C} (haccepts : Tracked.Accepts cell)
    (hrows : options.checkRows = 1) (valueBytes : Float) :
    (⟨options, 0, .dense Tracked.emptyBuffer⟩ : Accumulator C).push cell valueBytes =
      if (⟨1, 1⟩ : Density).sparsePaysOff valueBytes options.minSparsity then
        .done () ⟨options, 1, .sparse (.encode cell [cell])⟩
      else
        .ofOutcome ⟨options, 1, .dense (Tracked.appendAll Tracked.emptyBuffer [cell])⟩
          (Word.requireRoom options.expected
            (Tracked.sizeLimit (Tracked.appendAll Tracked.emptyBuffer [cell]))) := by
  have hcontents := Tracked.contents_appendAll (List.forall_mem_singleton.mpr haccepts)
  have hrecord : AccumulatorStorage.record (.dense Tracked.emptyBuffer) 0 cell =
      .done () (.dense (Tracked.appendAll Tracked.emptyBuffer [cell])) := by
    rw [AccumulatorStorage.record, haccepts]
    rfl
  have hempty : ¬rowLimit ≤ 0 := by decide
  have hcheck : 1 = max options.checkRows 1 := by rw [hrows, Nat.max_self]
  unfold push
  simp only [if_neg hempty, hrecord]
  unfold settle
  simp only [if_pos hcheck]
  unfold inspect
  rw [hcontents]
  simp only [dominant?_singleton, List.length_singleton]

/-- Inspected at once, the first cell turns the storage sparse if that pays. -/
theorem push_turns_sparse [LawfulTracked C] {cell : C} {valueBytes : Float}
    (haccepts : Tracked.Accepts cell) (hrows : options.checkRows = 1)
    (hpays : (⟨1, 1⟩ : Density).sparsePaysOff valueBytes options.minSparsity = true) :
    (⟨options, 0, .dense Tracked.emptyBuffer⟩ : Accumulator C).push cell valueBytes =
      .done () ⟨options, 1, .sparse (.encode cell [cell])⟩ := by
  rw [push_of_one_row haccepts hrows, if_pos hpays]

/-- Inspected at once, and without room for the expected rows, not even one cell is taken. -/
theorem push_of_no_room [LawfulTracked C] {cell : C} {valueBytes : Float}
    (haccepts : Tracked.Accepts cell) (hrows : options.checkRows = 1)
    (hpays : (⟨1, 1⟩ : Density).sparsePaysOff valueBytes options.minSparsity = false)
    (hroom : Tracked.sizeLimit (Tracked.appendAll Tracked.emptyBuffer [cell]) < options.expected) :
    ∃ next, (⟨options, 0, .dense Tracked.emptyBuffer⟩ : Accumulator C).push cell valueBytes =
      .refused .tooLarge next := by
  rw [push_of_one_row haccepts hrows, if_neg (Bool.eq_false_iff.mp hpays), Word.requireRoom,
    if_neg (Nat.not_le.mpr hroom)]
  exact ⟨_, rfl⟩

/-- Reading an accumulator back gives cells with the keys of those it was given. -/
theorem map_key_toList [LawfulTracked C] (h : accumulator.Holds options cells)
    (haccepts : accumulator.state ≠ .sparse → ∀ cell ∈ cells, Tracked.Accepts cell) :
    accumulator.toList.map Tracked.key = cells.map Tracked.key := by
  unfold toList
  obtain ⟨storage, hstorage⟩ : ∃ storage, accumulator.storage = storage := ⟨_, rfl⟩
  have hkeeps := h.keeps
  rw [state, hstorage] at haccepts
  rw [hstorage] at hkeeps ⊢
  cases hkeeps with
  | dense => simp only [Tracked.contents_appendAll (haccepts nofun)]
  | reverted hkeys =>
    simp only [Tracked.contents_appendAll (Tracked.accepts_of_map_key_eq hkeys (haccepts nofun))]
    exact hkeys
  | sparse hdefault =>
    rw [h.size_eq]
    exact Deltas.map_key_toList_encode _ cells

end Accumulator

end Columnar
