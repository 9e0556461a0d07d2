import Columnar.Proofs.Ingest.Pushing

/-!
# Refused pushes

A push that is refused should leave no trace, and what is refused should depend on the cell and on
the rows that are left, but not on the storage (`PushesCleanly`). Sparse storage breaks this with
cells that no buffer takes: it records them, and they are refused when the storage reverts or is
finished, long after. `RefusalLaw` tells exactly when: the storage is sparse and a row is left for
such a cell. For numbers and instants there is no such cell, so the law is without exception.
-/

set_option autoImplicit false
set_option relaxedAutoImplicit false

namespace Columnar.Accumulator

variable {C : Type} [Tracked C]

/-- The accumulators that come of pushing anything, with any costs. A refused push may be followed
by others. -/
inductive Reachable (options : IngestOptions) : Accumulator C → Prop
  | start {accumulator : Accumulator C} (h : ofOptions options = .ok accumulator) :
    Reachable options accumulator
  | push {accumulator : Accumulator C} (h : Reachable options accumulator) (cell : C)
    (valueBytes : Float) : Reachable options (accumulator.push cell valueBytes).state

def HoldsOnly (storable : C → Prop) (accumulator : Accumulator C) : Prop :=
  ∀ cell ∈ accumulator.toList, storable cell

/-- A cell is refused only when no row is left for it or it is not storable, and then nothing has
changed. A push may still fail for want of room, which is no answer. -/
structure PushesCleanly (storable : C → Prop) (accumulator : Accumulator C) (cell : C)
    (valueBytes : Float) : Prop where
  no_trace : ∀ fault next, accumulator.push cell valueBytes = .refused fault next →
    fault ≠ .tooLarge → next.size = accumulator.size ∧ next.state = accumulator.state ∧
      next.toList = accumulator.toList
  refused_iff : (∃ fault next, accumulator.push cell valueBytes = .refused fault next ∧
    fault ≠ .tooLarge) ↔ rowLimit ≤ accumulator.size ∨ ¬storable cell

/-- If sparse storage is given a cell that is not storable, while a row is left for it, that push is
not clean, the cell is held from then on, and no dense result can be had. Otherwise pushes are clean
and results can be had. -/
structure RefusalLaw (storable : C → Prop) (options : IngestOptions)
    (accumulator : Accumulator C) : Prop where
  pushesCleanly_iff : accumulator.HoldsOnly storable → ∀ cell valueBytes,
    accumulator.PushesCleanly storable cell valueBytes ↔
      (accumulator.state = .sparse → accumulator.size < rowLimit → storable cell)
  holdsOnly_push_iff : ∀ cell valueBytes,
    (accumulator.push cell valueBytes).state.HoldsOnly storable ↔
      accumulator.HoldsOnly storable ∧
        (accumulator.state = .sparse → accumulator.size < rowLimit → storable cell)
  finish_dense_iff : ∀ valueBytes, (∃ result, accumulator.finish .dense valueBytes = .ok result) ↔
    accumulator.HoldsOnly storable
  of_room : Tracked.HasRoom C options.expected → ∀ cell valueBytes next,
    accumulator.push cell valueBytes ≠ .refused .tooLarge next

section Cleanly

variable {storable : C → Prop} {accumulator : Accumulator C} {cell : C} {valueBytes : Float}

/-- A refusal that leaves the accumulator as it is and has one of the two reasons is clean. -/
theorem PushesCleanly.of_refused {fault : Fault}
    (hpush : accumulator.push cell valueBytes = .refused fault accumulator)
    (hfault : fault ≠ .tooLarge) (hreason : rowLimit ≤ accumulator.size ∨ ¬storable cell) :
    accumulator.PushesCleanly storable cell valueBytes := by
  refine ⟨?_, fun _ ↦ hreason, fun _ ↦ ⟨fault, accumulator, hpush, hfault⟩⟩
  intro fault next hrefused _
  rw [hpush] at hrefused
  cases hrefused
  exact ⟨rfl, rfl, rfl⟩

/-- With a row left, taking a storable cell is clean. -/
theorem PushesCleanly.of_taken (hroom : accumulator.size < rowLimit) (hcell : storable cell)
    (hnever : ∀ fault next, accumulator.push cell valueBytes = .refused fault next →
      fault = .tooLarge) : accumulator.PushesCleanly storable cell valueBytes := by
  refine ⟨fun fault next hrefused hfault ↦ absurd (hnever fault next hrefused) hfault, ?_, ?_⟩
  · rintro ⟨fault, next, hrefused, hfault⟩
    exact absurd (hnever fault next hrefused) hfault
  · rintro (hfull | hnot)
    · exact absurd hroom (Nat.not_lt.mpr hfull)
    · exact absurd hcell hnot

end Cleanly

variable [LawfulTracked C] {storable : C → Prop} {accumulator : Accumulator C}
  {options : IngestOptions} {cells : List C}

namespace Reached

theorem map_key_toList (h : accumulator.Reached storable options cells) :
    accumulator.toList.map Tracked.key = cells.map Tracked.key :=
  Accumulator.map_key_toList h.toHolds fun hstate cell hcell ↦
    h.stores.accepts (h.of_not_sparse hstate cell hcell)

theorem holdsOnly_iff (h : accumulator.Reached storable options cells) :
    accumulator.HoldsOnly storable ↔ ∀ cell ∈ cells, storable cell := by
  have hkeys := h.map_key_toList
  exact ⟨h.stores.forall_of_map_key_eq hkeys.symm, h.stores.forall_of_map_key_eq hkeys⟩

/-- After a push the accumulator holds an unstorable cell if it did before, or if its storage is
sparse and took the pushed one. -/
theorem holdsOnly_push_iff (h : accumulator.Reached storable options cells) (cell : C)
    (valueBytes : Float) :
    (accumulator.push cell valueBytes).state.HoldsOnly storable ↔
      accumulator.HoldsOnly storable ∧
        (accumulator.state = .sparse → accumulator.size < rowLimit → storable cell) := by
  have hpushes := h.pushes cell valueBytes
  have hsize := h.size_eq
  generalize accumulator.push cell valueBytes = attempt at hpushes ⊢
  cases hpushes with
  | full hfull =>
    have hnot : ¬accumulator.size < rowLimit := by omega
    simp [Attempt.state, hnot]
  | refuses hroom hstate hcell hfault => simp [Attempt.state, hstate]
  | records hroom hcell hstate hrecorded hsettles =>
    have hlt : accumulator.size < rowLimit := by omega
    rw [h.holdsOnly_iff, (hrecorded.of_settles hsettles).holdsOnly_iff,
      List.forall_mem_append]
    refine and_congr_right fun _ ↦ ?_
    rw [List.forall_mem_singleton]
    refine ⟨fun hstorable _ _ ↦ hstorable, fun hsparse ↦ ?_⟩
    rcases hcell with hstate | hcell
    · exact hsparse hstate hlt
    · exact hcell

/-- Sparse storage that takes a cell cleanly takes a storable one. -/
theorem storable_of_pushesCleanly (h : accumulator.Reached storable options cells) {cell : C}
    {valueBytes : Float} (hclean : accumulator.PushesCleanly storable cell valueBytes)
    (hsparse : accumulator.state = .sparse) (hlt : accumulator.size < rowLimit) :
    storable cell := by
  apply Classical.byContradiction
  intro hcell
  obtain ⟨fault, next, hrefused, hfault⟩ := hclean.refused_iff.mpr (.inr hcell)
  obtain ⟨hsize, -, -⟩ := hclean.no_trace fault next hrefused hfault
  have hpushes := h.pushes cell valueBytes
  rw [hrefused] at hpushes
  rw [h.size_eq] at hsize hlt
  cases hpushes with
  | full hfull => exact absurd hlt (Nat.not_lt.mpr hfull)
  | refuses hroom hstate hcell hfault => exact hstate hsparse
  | records hroom hcell hstate hrecorded hsettles =>
    -- The refusal came after the row was counted.
    obtain ⟨rfl, -⟩ := hsettles.of_refused
    rw [hrecorded.size_eq, List.length_append, List.length_singleton] at hsize
    omega

/-- As long as all cells held are storable, a push is clean unless sparse storage takes one that is
not. -/
theorem pushesCleanly_iff (h : accumulator.Reached storable options cells)
    (hholds : accumulator.HoldsOnly storable) (cell : C) (valueBytes : Float) :
    accumulator.PushesCleanly storable cell valueBytes ↔
      (accumulator.state = .sparse → accumulator.size < rowLimit → storable cell) := by
  refine ⟨fun hclean hsparse ↦ h.storable_of_pushesCleanly hclean hsparse, fun hsparse ↦ ?_⟩
  have hpushes := h.pushes cell valueBytes
  have hcells := h.holdsOnly_iff.mp hholds
  obtain ⟨attempt, hpush⟩ : ∃ attempt, accumulator.push cell valueBytes = attempt := ⟨_, rfl⟩
  rw [hpush] at hpushes
  cases hpushes with
  | full hfull =>
    rw [← h.size_eq] at hfull
    exact .of_refused hpush nofun (.inl hfull)
  | refuses hroom hstate hcell hfault => exact .of_refused hpush hfault (.inr hcell)
  | records hroom hcell hstate hrecorded hsettles =>
    rw [← h.size_eq] at hroom
    have hcell : storable cell := by
      rcases hcell with hstate | hcell
      · exact hsparse hstate hroom
      · exact hcell
    refine .of_taken hroom hcell ?_
    intro fault next hrefused
    rw [hpush] at hrefused
    subst hrefused
    apply Classical.byContradiction
    intro hfault
    exact hsettles.of_refused.2 hfault
      (List.forall_mem_append.mpr ⟨hcells, List.forall_mem_singleton.mpr hcell⟩)

/-- A dense result can be had of storable cells. -/
theorem finish_dense_iff (h : accumulator.Reached storable options cells) (valueBytes : Float) :
    (∃ result, accumulator.finish .dense valueBytes = .ok result) ↔
      accumulator.HoldsOnly storable := by
  rw [h.holdsOnly_iff]
  by_cases hstate : accumulator.state = .sparse
  · obtain ⟨deltas, hstorage⟩ := state_eq_sparse_iff.mp hstate
    have hkeys := h.map_key_toList
    have hlimit := LawfulTracked.hasRoom (Tracked.emptyBuffer : Tracked.Buffer C)
    have hlength := h.length_le
    rw [toList, hstorage] at hkeys
    unfold finish
    rw [finalDefault?, hstorage]
    simp only
    rcases h.stores.bufferOf_cases accumulator.size (deltas.toList accumulator.size) with
      ⟨hroom, -⟩ | ⟨hstorable, hbuffer⟩ | ⟨hstorable, fault, -, hbuffer⟩
    · rw [h.size_eq] at hroom
      omega
    · rw [hbuffer]
      exact ⟨fun _ ↦ h.stores.forall_of_map_key_eq hkeys.symm hstorable, fun _ ↦ ⟨_, rfl⟩⟩
    · rw [hbuffer]
      refine ⟨?_, fun hall ↦ absurd (h.stores.forall_of_map_key_eq hkeys hall) hstorable⟩
      rintro ⟨result, hresult⟩
      contradiction
  · refine ⟨fun _ ↦ h.of_not_sparse hstate, fun _ ↦ ?_⟩
    unfold finish
    rw [finalDefault?]
    cases hstorage : accumulator.storage with
    | sparse deltas => exact absurd (state_eq_sparse_iff.mpr ⟨deltas, hstorage⟩) hstate
    | _ buffer => exact ⟨_, rfl⟩

theorem refusalLaw (h : accumulator.Reached storable options cells) :
    accumulator.RefusalLaw storable options where
  pushesCleanly_iff hholds cell valueBytes := h.pushesCleanly_iff hholds cell valueBytes
  holdsOnly_push_iff := h.holdsOnly_push_iff
  finish_dense_iff := h.finish_dense_iff
  of_room hroom _ _ _ hpush := h.ne_tooLarge hroom hpush rfl

end Reached

theorem Reachable.exists_reached (hstores : Tracked.Stores storable)
    (h : Reachable options accumulator) : ∃ cells, accumulator.Reached storable options cells := by
  induction h with
  | start h => exact ⟨[], reached_ofOptions hstores h⟩
  | push h cell valueBytes ih =>
    obtain ⟨cells, hreached⟩ := ih
    exact hreached.exists_held cell valueBytes

theorem Reachable.refusalLaw (hstores : Tracked.Stores storable)
    (h : Reachable options accumulator) : accumulator.RefusalLaw storable options := by
  obtain ⟨cells, hreached⟩ := h.exists_reached hstores
  exact hreached.refusalLaw

/-- The law of refusals for the four types of cells: all numbers, times and instants are storable,
and category indices up to the bound of the widest format. -/
theorem refusalLaw_of_reachable (options : IngestOptions) :
    (∀ accumulator : Accumulator Binary64, Reachable options accumulator →
      accumulator.RefusalLaw (fun _ ↦ True) options) ∧
    (∀ accumulator : Accumulator Int, Reachable options accumulator →
      accumulator.RefusalLaw (fun _ ↦ True) options) ∧
    (∀ accumulator : Accumulator (Option Instant), Reachable options accumulator →
      accumulator.RefusalLaw (fun _ ↦ True) options) ∧
    ∀ accumulator : Accumulator Nat, Reachable options accumulator →
      accumulator.RefusalLaw (· ≤ 2147483647) options :=
  ⟨fun _ h ↦ h.refusalLaw Tracked.stores_number, fun _ h ↦ h.refusalLaw Tracked.stores_time,
    fun _ h ↦ h.refusalLaw Tracked.stores_instant, fun _ h ↦ h.refusalLaw Tracked.stores_index⟩

/-- One index is enough to turn this accumulator sparse. -/
theorem reachable_sparse :
    Reachable .sparseAtOnce (⟨.sparseAtOnce, 1, .sparse ⟨0, #[]⟩⟩ : Accumulator Nat) := by
  have hpush : (⟨.sparseAtOnce, 0, .dense Tracked.emptyBuffer⟩ : Accumulator Nat).push 0 8 =
      .done () ⟨.sparseAtOnce, 1, .sparse ⟨0, #[]⟩⟩ :=
    push_turns_sparse (Tracked.accepts_index (by decide)) rfl (by decide)
  have hreachable : Reachable .sparseAtOnce (Attempt.state _) := .push (.start rfl) 0 8
  rwa [hpush] at hreachable

/-- An accumulator that has turned sparse takes an index cleanly. An index beyond every format is
not taken cleanly, though it is held, and no dense result can be had any more. -/
theorem refusalLaw_of_reachable_sparse :
    ∃ accumulator : Accumulator Nat,
      Reachable .sparseAtOnce accumulator ∧ accumulator.state = .sparse ∧
      accumulator.PushesCleanly (· ≤ 2147483647) 5 8 ∧
      ¬accumulator.PushesCleanly (· ≤ 2147483647) 2147483648 8 ∧
      ¬∃ result, (accumulator.push 2147483648 8).state.finish .dense 8 = .ok result := by
  have hlaw := (refusalLaw_of_reachable .sparseAtOnce).2.2.2 _ reachable_sparse
  have hlaw' := (refusalLaw_of_reachable .sparseAtOnce).2.2.2 _ (reachable_sparse.push 2147483648 8)
  have hholds : HoldsOnly (· ≤ 2147483647)
      (⟨.sparseAtOnce, 1, .sparse ⟨0, #[]⟩⟩ : Accumulator Nat) := by
    show ∀ index ∈ [0], index ≤ 2147483647
    decide
  have hbeyond : ¬(SparsityState.sparse = .sparse → 1 < rowLimit → 2147483648 ≤ 2147483647) := by
    decide
  refine ⟨_, reachable_sparse, rfl, ?_, ?_, ?_⟩
  · exact (hlaw.pushesCleanly_iff hholds 5 8).mpr fun _ _ ↦ by decide
  · rw [hlaw.pushesCleanly_iff hholds]
    exact hbeyond
  · rw [hlaw'.finish_dense_iff, hlaw.holdsOnly_push_iff]
    exact fun h ↦ hbeyond h.2

/-- An index beyond every format is taken by sparse storage. No dense result can be had then, and
the next push is refused because of it, though its row is counted. -/
theorem exists_unstorable_index_taken :
    ∃ accumulator next : Accumulator Nat,
      Reachable { checkRows := 1, minSparsity := 0 } accumulator ∧ accumulator.state = .sparse ∧
      accumulator.push 2147483648 8 = .done () next ∧
      next.finish .dense 8 = .error (.formatOverflow "INT32" 2147483648 2147483647) ∧
      ∃ last, next.push 5 8 = .refused (.formatOverflow "INT32" 2147483648 2147483647) last ∧
        last.size = next.size + 1 := by
  have hcounted : (⟨.sparseAtOnce, 2, .sparse ⟨0, #[(1, 2147483648)]⟩⟩ : Accumulator Nat).push 5 8 =
      .refused (.formatOverflow "INT32" 2147483648 2147483647)
        ⟨.sparseAtOnce, 3, .sparse ⟨0, #[(1, 2147483648), (2, 5)]⟩⟩ := rfl
  exact ⟨_, ⟨.sparseAtOnce, 2, .sparse ⟨0, #[(1, 2147483648)]⟩⟩, reachable_sparse, rfl, rfl, rfl, _,
    hcounted, rfl⟩

end Columnar.Accumulator
