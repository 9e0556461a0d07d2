import Columnar.Proofs.Ingest.Refusals
import Columnar.Proofs.Ingest.Writing

/-!
# What an accumulator retains

After every push an accumulator reads back the cells that were pushed, in order and up to their
keys, whichever storage they are in at that moment (`Retains`). Sparse storage lists exactly the
rows whose cell deviates from its default, each once and in order, with the cell that was pushed.
One push adds its cell to what is retained (`Reached.of_done`), so by induction over the pushes the
accumulator retains all of them at every step of the way (`Reached.of_pushEach`), and no step fails
but for want of room for the expected rows (`Reached.pushEach_cases`).
-/

set_option autoImplicit false
set_option relaxedAutoImplicit false

namespace Columnar

variable {C : Type} [Tracked C]

namespace Deltas

/-- Encoding lists exactly the cells that deviate from the default, under their rows. -/
theorem mem_encode_iff {default cell : C} {cells : List C} {row : Nat} :
    (row, cell) ∈ (encode default cells).exceptions.toList ↔
      cells[row]? = some cell ∧ Tracked.key cell ≠ Tracked.key default := by
  show (row, cell) ∈ deviations (Tracked.sameKey · default) cells ↔ _
  unfold deviations
  rw [List.mem_filterMap]
  constructor
  · rintro ⟨⟨other, place⟩, hmem, hpicked⟩
    by_cases hsame : Tracked.sameKey other default
    · simp [hsame] at hpicked
    · simp only [hsame, Bool.false_eq_true, if_false, Option.some.injEq, Prod.mk.injEq] at hpicked
      obtain ⟨rfl, rfl⟩ := hpicked
      exact ⟨List.mk_mem_zipIdx_iff_getElem?.mp hmem,
        fun hkey ↦ hsame (Tracked.sameKey_iff.mpr hkey)⟩
  · rintro ⟨hcell, hkey⟩
    have hsame : Tracked.sameKey cell default = false :=
      Bool.eq_false_iff.mpr fun hsame ↦ hkey (Tracked.sameKey_iff.mp hsame)
    refine ⟨(cell, row), List.mk_mem_zipIdx_iff_getElem?.mpr hcell, ?_⟩
    simp [hsame]

theorem pairwise_encode (default : C) (cells : List C) :
    ((encode default cells).exceptions.toList.map Prod.fst).Pairwise (· < ·) := by
  unfold encode
  rw [deviations_eq_pickedFrom]
  exact List.pairwise_map.mpr (pairwise_pickedFrom cells 0)

end Deltas

namespace Accumulator

/-- The accumulator reads the pushed cells back. While it is sparse it stores, in the order of their
rows, exactly the cells whose key is not that of its default. -/
structure Retains (accumulator : Accumulator C) (cells : List C) : Prop where
  size_eq : accumulator.size = cells.length
  keys_eq : accumulator.toList.map Tracked.key = cells.map Tracked.key
  increasing : ∀ deltas, accumulator.storage = .sparse deltas →
    (deltas.exceptions.toList.map Prod.fst).Pairwise (· < ·)
  below : ∀ deltas, accumulator.storage = .sparse deltas →
    ∀ row ∈ deltas.exceptions.toList.map Prod.fst, row < accumulator.size
  stored_iff : ∀ deltas, accumulator.storage = .sparse deltas → ∀ (row : Nat) (cell : C),
    (row, cell) ∈ deltas.exceptions.toList ↔
      cells[row]? = some cell ∧ Tracked.key cell ≠ Tracked.key deltas.default

/-- Pushes cells, each at a cost of its own, and answers with the accumulator after each push. -/
def pushEach (accumulator : Accumulator C) (pushes : List (C × Float)) :
    Attempt (Accumulator C) (List (Accumulator C)) :=
  Attempt.runAll (fun accumulator (push : C × Float) ↦ accumulator.push push.1 push.2)
    (fun _ next ↦ next) accumulator pushes

/-- What options come to for every sequence of pushes: what was pushed is retained after each push,
and as long as there is room for the expected rows, and a row for each cell, every push is taken. -/
structure RetentionLaw (C : Type) [Tracked C] (storable : C → Prop) (options : IngestOptions) :
    Prop where
  starts : Tracked.HasRoom C options.expected →
    ∃ start : Accumulator C, ofOptions options = .ok start
  empty : ∀ start : Accumulator C, ofOptions options = .ok start → start.Retains []
  succeeds : Tracked.HasRoom C options.expected → ∀ (start : Accumulator C) pushes,
    ofOptions options = .ok start → (∀ push ∈ pushes, storable push.1) →
      pushes.length ≤ rowLimit → ∃ states last, start.pushEach pushes = .done states last
  retains : ∀ (start : Accumulator C) pushes states last, ofOptions options = .ok start →
    start.pushEach pushes = .done states last → states.length = pushes.length ∧
      ∀ (place : Nat) (accumulator : Accumulator C), states[place]? = some accumulator →
        accumulator.Retains ((pushes.take (place + 1)).map Prod.fst)
  /-- Whatever is expected, a push can only fail for want of room. -/
  fails : ∀ (start : Accumulator C) pushes fault last, ofOptions options = .ok start →
    (∀ push ∈ pushes, storable push.1) → pushes.length ≤ rowLimit →
      start.pushEach pushes = .refused fault last →
        fault = .tooLarge ∧ ¬Tracked.HasRoom C options.expected

variable {storable : C → Prop} {accumulator : Accumulator C} {options : IngestOptions}
  {cells : List C} {pushes : List (C × Float)}

theorem pushEach_cons (accumulator : Accumulator C) (push : C × Float)
    (pushes : List (C × Float)) :
    accumulator.pushEach (push :: pushes) =
      match accumulator.push push.1 push.2 with
      | .done _ next => (next.pushEach pushes).mapAnswer (next :: ·)
      | .refused fault next => .refused fault next := by
  unfold pushEach
  rw [Attempt.runAll_cons]
  cases accumulator.push push.1 push.2 <;> rfl

namespace Reached

variable [LawfulTracked C]

theorem retains (h : accumulator.Reached storable options cells) : accumulator.Retains cells := by
  refine ⟨h.size_eq, h.map_key_toList, ?_, ?_, ?_⟩
  · intro deltas hdeltas
    obtain ⟨default, -, rfl⟩ := h.exists_eq_encode hdeltas
    exact Deltas.pairwise_encode default cells
  · intro deltas hdeltas row hrow
    obtain ⟨default, -, rfl⟩ := h.exists_eq_encode hdeltas
    obtain ⟨⟨row, cell⟩, hentry, rfl⟩ := List.mem_map.mp hrow
    rw [h.size_eq]
    exact (List.getElem?_eq_some_iff.mp (Deltas.mem_encode_iff.mp hentry).1).1
  · intro deltas hdeltas row cell
    obtain ⟨default, -, rfl⟩ := h.exists_eq_encode hdeltas
    exact Deltas.mem_encode_iff

/-- After each of the pushes, the accumulator has been given the cells up to that one. -/
theorem of_pushEach (h : accumulator.Reached storable options cells)
    {states : List (Accumulator C)} {last : Accumulator C}
    (hrun : accumulator.pushEach pushes = .done states last) :
    states.length = pushes.length ∧
      ∀ (place : Nat) (next : Accumulator C), states[place]? = some next →
        next.Reached storable options (cells ++ (pushes.take (place + 1)).map Prod.fst) := by
  induction pushes generalizing accumulator cells states with
  | nil =>
    cases hrun
    exact ⟨rfl, nofun⟩
  | cons push rest ih =>
    rw [pushEach_cons] at hrun
    cases hpush : accumulator.push push.1 push.2 with
    | refused fault next =>
      rw [hpush] at hrun
      contradiction
    | done answer next =>
      rw [hpush] at hrun
      simp only at hrun
      have hnext := h.of_done hpush
      cases hrest : next.pushEach rest with
      | refused fault other =>
        rw [hrest] at hrun
        contradiction
      | done later other =>
        rw [hrest] at hrun
        cases hrun
        obtain ⟨hlength, hlater⟩ := ih hnext hrest
        refine ⟨congrArg (· + 1) hlength, fun place state hstate ↦ ?_⟩
        cases place with
        | zero =>
          cases hstate
          exact hnext
        | succ place =>
          have hreached := hlater place state hstate
          rwa [List.append_assoc] at hreached

/-- With a row left for each cell, storable cells are all taken, unless there is no room for the
expected rows. -/
theorem pushEach_cases (h : accumulator.Reached storable options cells)
    (hcells : ∀ other ∈ cells, storable other) (hpushes : ∀ push ∈ pushes, storable push.1)
    (hlength : cells.length + pushes.length ≤ rowLimit) :
    (∃ states last, accumulator.pushEach pushes = .done states last) ∨
      ∃ last, accumulator.pushEach pushes = .refused .tooLarge last ∧
        ¬Tracked.HasRoom C options.expected := by
  induction pushes generalizing accumulator cells with
  | nil => exact .inl ⟨[], accumulator, rfl⟩
  | cons push rest ih =>
    obtain ⟨hcell, hrest⟩ := List.forall_mem_cons.mp hpushes
    rw [List.length_cons] at hlength
    rw [pushEach_cons]
    cases hpush : accumulator.push push.1 push.2 with
    | refused fault next =>
      by_cases hfault : fault = .tooLarge
      · subst hfault
        exact .inr ⟨next, rfl, fun hroom ↦ h.ne_tooLarge hroom hpush rfl⟩
      · have hfull := (h.of_refused hcells hcell hpush hfault).1
        omega
    | done answer next =>
      have hall : ∀ other ∈ cells ++ [push.1], storable other :=
        List.forall_mem_append.mpr ⟨hcells, List.forall_mem_singleton.mpr hcell⟩
      have hleft : (cells ++ [push.1]).length + rest.length ≤ rowLimit := by
        rw [List.length_append, List.length_singleton]
        omega
      rcases ih (h.of_done hpush) hall hrest hleft with ⟨states, last, hdone⟩ | ⟨last, hnone, hroom⟩
      · exact .inl ⟨next :: states, last, by simp only [hdone]; rfl⟩
      · exact .inr ⟨last, by simp only [hnone]; rfl, hroom⟩

end Reached

theorem retentionLaw [LawfulTracked C] (hstores : Tracked.Stores storable)
    (options : IngestOptions) : RetentionLaw C storable options := by
  have hcases {start : Accumulator C} {pushes : List (C × Float)}
      (hstart : ofOptions options = .ok start) (hpushes : ∀ push ∈ pushes, storable push.1)
      (hlength : pushes.length ≤ rowLimit) :=
    (reached_ofOptions hstores hstart).pushEach_cases nofun hpushes (by simpa using hlength)
  constructor
  case starts =>
    intro hroom
    exact ⟨_, ofOptions_of_room (Nat.le_trans (Nat.min_le_left _ _) (hroom _))⟩
  case empty => exact fun start hstart ↦ (reached_ofOptions hstores hstart).retains
  case succeeds =>
    intro hroom start pushes hstart hpushes hlength
    rcases hcases hstart hpushes hlength with hdone | ⟨last, -, hnone⟩
    · exact hdone
    · exact absurd hroom hnone
  case retains =>
    intro start pushes states last hstart hrun
    obtain ⟨hlength, hreached⟩ := (reached_ofOptions hstores hstart).of_pushEach hrun
    exact ⟨hlength, fun place accumulator hplace ↦ (hreached place accumulator hplace).retains⟩
  case fails =>
    intro start pushes fault last hstart hpushes hlength hrun
    rcases hcases hstart hpushes hlength with ⟨states, other, hdone⟩ | ⟨other, hrefused, hnone⟩
    · rw [hrun] at hdone
      contradiction
    · rw [hrun] at hrefused
      cases hrefused
      exact ⟨rfl, hnone⟩

/-- The law of retention for the four types of cells: all numbers, times and instants are storable,
and category indices up to the bound of the widest format. -/
theorem retains_pushed_cells (options : IngestOptions) :
    RetentionLaw Binary64 (fun _ ↦ True) options ∧ RetentionLaw Int (fun _ ↦ True) options ∧
      RetentionLaw (Option Instant) (fun _ ↦ True) options ∧
      RetentionLaw Nat (· ≤ 2147483647) options :=
  ⟨retentionLaw Tracked.stores_number options, retentionLaw Tracked.stores_time options,
    retentionLaw Tracked.stores_instant options, retentionLaw Tracked.stores_index options⟩

/-- When too many rows are expected, an accumulator can be made, but not even the number one can be
pushed onto it. -/
theorem exists_not_pushEach_beyond_room :
    ∃ start : Accumulator Binary64, ofOptions .beyondRoom = .ok start ∧
      ¬∃ states last, start.pushEach [(.ofParts false Binary64.unit, 8)] = .done states last := by
  obtain ⟨next, hpush⟩ := @push_of_no_room Binary64 _ .beyondRoom _
    (.ofParts false Binary64.unit) 8 (Tracked.accepts_number _) rfl (by decide) (by decide)
  refine ⟨_, ofOptions_of_one_row rfl, ?_⟩
  rintro ⟨states, last, hrun⟩
  rw [pushEach_cons, hpush] at hrun
  contradiction

end Accumulator

end Columnar
