import Columnar.Proofs.Ingest.Pushing

/-!
# The phases of an accumulator

The state of an accumulator is dense until a fixed number of cells is reached. With that cell it
turns sparse if the most frequent cell pays then, and otherwise it is dense for good. Sparse storage
may be given up later, and never comes back. `SparsityState.Step` is that machine, every successful
push is a step of it (`Reached.step`), and `SparsityLaw` says what it comes to over a whole run.
-/

set_option autoImplicit false
set_option relaxedAutoImplicit false

namespace Columnar

/-! ### What pays -/

namespace Density

/-- Where sparse storage pays it is smaller than dense storage, as the machine compares them. -/
theorem lt_of_sparsePaysOff {density : Density} {valueBytes minSparsity : Float}
    (h : density.sparsePaysOff valueBytes minSparsity = true) :
    count density.exceptions * (positionBytes + valueBytes) < count density.rows * valueBytes := by
  unfold sparsePaysOff at h
  split at h
  · contradiction
  · exact of_decide_eq_true h

end Density

variable {C : Type} [Tracked C]

/-- The most frequent of the cells makes sparse storage pay. -/
def DominantPays (cells : List C) (valueBytes minSparsity : Float) : Prop :=
  ∃ cell ∈ cells, (∀ other ∈ cells, occurrences cells other ≤ occurrences cells cell) ∧
    (⟨cells.length, occurrences cells cell⟩ : Density).sparsePaysOff valueBytes minSparsity = true

theorem dominantPays_iff {cells : List C} {default : C} {count : Nat}
    (h : dominant? cells = some (default, count)) {valueBytes minSparsity : Float} :
    DominantPays cells valueBytes minSparsity ↔
      (⟨cells.length, count⟩ : Density).sparsePaysOff valueBytes minSparsity = true := by
  obtain ⟨rfl, hmaximum⟩ := dominant?_eq_some h
  constructor
  · rintro ⟨cell, hcell, hmost, hpays⟩
    have hcount : occurrences cells cell = occurrences cells default :=
      Nat.le_antisymm (hmaximum.le hcell) (hmost default hmaximum.mem)
    rwa [hcount] at hpays
  · intro hpays
    exact ⟨default, hmaximum.mem, fun other hother ↦ hmaximum.le hother, hpays⟩

/-- A cell either deviates from a default or is an occurrence of it. -/
theorem length_deviations_add_occurrences (cells : List C) (default : C) :
    (deviations (Tracked.sameKey · default) cells).length + occurrences cells default =
      cells.length := by
  have hoccurrences : occurrences cells default =
      cells.countP fun cell ↦ Tracked.sameKey cell default := by
    rw [occurrences, List.count_eq_countP, List.countP_map]
    rfl
  rw [deviations_eq_pickedFrom, length_pickedFrom, hoccurrences, Nat.add_comm,
    List.length_eq_countP_add_countP fun cell ↦ Tracked.sameKey cell default]
  congr 2
  funext cell
  cases Tracked.sameKey cell default <;> rfl

/-! ### The machine -/

namespace SparsityState

/-- How the state may change with a push after which there are `size` cells. Storage is inspected
when there are `check` of them, and `pays` is what the inspection finds. -/
inductive Step (check size : Nat) (pays : Prop) : SparsityState → SparsityState → Prop
  | waits (hsize : size ≠ check) : Step check size pays .dense .dense
  | staysDense (hsize : size = check) (hpays : ¬pays) : Step check size pays .dense .dense
  | turnsSparse (hsize : size = check) (hpays : pays) : Step check size pays .dense .sparse
  | staysSparse : Step check size pays .sparse .sparse
  | reverts : Step check size pays .sparse .reverted
  | staysReverted : Step check size pays .reverted .reverted

/-- What may become of a state once the storage was inspected. -/
def Leads : SparsityState → SparsityState → Prop
  | dense, last => last = dense
  | sparse, last => last ≠ dense
  | reverted, last => last = reverted

theorem Leads.refl (state : SparsityState) : Leads state state := by
  cases state with
  | sparse => exact nofun
  | _ => rfl

theorem Leads.trans {first middle last : SparsityState} (h : Leads first middle)
    (hlast : Leads middle last) : Leads first last := by
  cases first with
  | dense =>
    obtain rfl : middle = dense := h
    exact hlast
  | reverted =>
    obtain rfl : middle = reverted := h
    exact hlast
  | sparse =>
    cases middle with
    | dense => exact absurd rfl h
    | sparse => exact hlast
    | reverted =>
      obtain rfl : last = reverted := hlast
      exact nofun

section Steps

variable {check size : Nat} {pays : Prop} {first last : SparsityState}

theorem Step.dense_before_check (h : Step check size pays .dense last) (hsize : size < check) :
    last = .dense := by
  cases h with
  | turnsSparse hcheck hpays => omega
  | _ => rfl

theorem Step.at_check (h : Step check size pays .dense last) (hsize : size = check) :
    (last = .sparse ↔ pays) ∧ (last = .sparse ∨ last = .dense) := by
  cases h with
  | waits hcheck => exact absurd hsize hcheck
  | staysDense hcheck hpays => exact ⟨⟨nofun, fun hnot ↦ absurd hnot hpays⟩, .inr rfl⟩
  | turnsSparse hcheck hpays => exact ⟨⟨fun _ ↦ hpays, fun _ ↦ rfl⟩, .inl rfl⟩

theorem Step.sparse_only_at_check (h : Step check size pays first .sparse)
    (hfirst : first ≠ .sparse) : size = check := by
  cases h with
  | turnsSparse hcheck hpays => exact hcheck
  | staysSparse => exact absurd rfl hfirst

theorem Step.leads (h : Step check size pays first last) (hsize : check < size) :
    Leads first last := by
  cases h with
  | turnsSparse hcheck hpays => omega
  | reverts => exact nofun
  | staysSparse => exact nofun
  | _ => rfl

end Steps

end SparsityState

namespace Accumulator

/-- Sparse storage takes less than dense storage at this cost of a cell, as the machine compares
them. -/
def SmallerAt (accumulator : Accumulator C) (valueBytes : Float) : Prop :=
  ∀ deltas, accumulator.storage = .sparse deltas →
    Density.count deltas.exceptions.size * (positionBytes + valueBytes) <
      Density.count accumulator.size * valueBytes

/-- Pushing storable cells, each at a cost of its own. Pushes that are refused do not count, and one
that fails for want of room ends the run. -/
inductive Run (storable : C → Prop) (start : Accumulator C) :
    List (C × Float) → Accumulator C → Prop
  | start : Run storable start [] start
  | push {pushes : List (C × Float)} {accumulator next : Accumulator C} {cell : C}
    {valueBytes : Float} (h : Run storable start pushes accumulator) (hcell : storable cell)
    (hpush : accumulator.push cell valueBytes = .done () next) :
    Run storable start (pushes ++ [(cell, valueBytes)]) next
  | refused {pushes : List (C × Float)} {accumulator next : Accumulator C} {cell : C}
    {valueBytes : Float} {fault : Fault} (h : Run storable start pushes accumulator)
    (hcell : storable cell) (hpush : accumulator.push cell valueBytes = .refused fault next)
    (hfault : fault ≠ .tooLarge) : Run storable start pushes next

/-- What is true of the state after these pushes, the last one included, and of what follows. -/
structure SparsityLaw (storable : C → Prop) (options : IngestOptions) (pushes : List (C × Float))
    (accumulator : Accumulator C) : Prop where
  size_eq : accumulator.size = pushes.length
  takes : Tracked.HasRoom C options.expected → pushes.length < rowLimit →
    ∀ cell valueBytes, storable cell → ∃ next, accumulator.push cell valueBytes = .done () next
  dense_before_check : pushes.length < max options.checkRows 1 → accumulator.state = .dense
  /-- The push that reaches the check turns the storage sparse exactly if the most frequent cell
  pays, and otherwise leaves it dense. -/
  at_check : pushes.length + 1 = max options.checkRows 1 → ∀ cell valueBytes next, storable cell →
    accumulator.push cell valueBytes = .done () next →
      (next.state = .sparse ↔
        DominantPays (pushes.map Prod.fst ++ [cell]) valueBytes options.minSparsity) ∧
      (next.state = .sparse ∨ next.state = .dense)
  /-- No other push turns the storage sparse. -/
  sparse_only_at_check : accumulator.state ≠ .sparse → ∀ cell valueBytes next, storable cell →
    accumulator.push cell valueBytes = .done () next → next.state = .sparse →
      pushes.length + 1 = max options.checkRows 1
  dense_for_ever : max options.checkRows 1 ≤ pushes.length → accumulator.state = .dense →
    ∀ more last, Run storable accumulator more last → last.state = .dense
  sparse_or_reverted : accumulator.state = .sparse →
    ∀ more last, Run storable accumulator more last → last.state = .sparse ∨ last.state = .reverted
  reverted_for_ever : accumulator.state = .reverted →
    ∀ more last, Run storable accumulator more last → last.state = .reverted
  /-- After a push at some cost sparse storage is smaller at that cost. -/
  smaller : ∀ cell valueBytes, pushes.getLast? = some (cell, valueBytes) →
    accumulator.SmallerAt valueBytes

variable {storable : C → Prop} {accumulator next : Accumulator C} {options : IngestOptions}
  {cells : List C} {cell : C} {valueBytes : Float}

/-- Where an inspection turns storage sparse it is smaller. -/
theorem smallerAt_of_pays {default : C} {count : Nat} (hsize : accumulator.size = cells.length)
    (hdominant : dominant? cells = some (default, count)) {minSparsity : Float}
    (hpays : (⟨cells.length, count⟩ : Density).sparsePaysOff valueBytes minSparsity = true) :
    SmallerAt { accumulator with storage := .sparse (.encode default cells) } valueBytes := by
  intro deltas hdeltas
  cases hdeltas
  have hcount := length_deviations_add_occurrences cells default
  rw [← (dominant?_eq_some hdominant).1] at hcount
  have hexceptions : (Deltas.encode default cells).exceptions.size =
      (⟨cells.length, count⟩ : Density).exceptions := by
    show (deviations (Tracked.sameKey · default) cells).toArray.size = _
    rw [List.size_toArray, Density.exceptions_of_le (by omega)]
    omega
  show Density.count (Deltas.encode default cells).exceptions.size * (positionBytes + valueBytes) <
    Density.count accumulator.size * valueBytes
  rw [hexceptions, hsize]
  exact Density.lt_of_sparsePaysOff hpays

/-- Where sparse storage still pays it is smaller. -/
theorem smallerAt_of_stillPays (h : accumulator.Holds options cells) {deltas : Deltas C}
    (hstorage : accumulator.storage = .sparse deltas)
    (hpays : accumulator.stillPays deltas valueBytes = true) :
    accumulator.SmallerAt valueBytes := by
  intro other hother
  rw [hstorage] at hother
  cases hother
  obtain ⟨default, -, rfl⟩ := h.exists_eq_encode hstorage
  have hle : (Deltas.encode default cells).exceptions.size ≤ accumulator.size := by
    rw [h.size_eq]
    show (deviations (Tracked.sameKey · default) cells).toArray.size ≤ cells.length
    rw [List.size_toArray, deviations_eq_pickedFrom]
    exact length_pickedFrom_le _ _
  have hlt := Density.lt_of_sparsePaysOff hpays
  have hexceptions : accumulator.size -
      (accumulator.size - (Deltas.encode default cells).exceptions.size) =
        (Deltas.encode default cells).exceptions.size := by
    omega
  rwa [Density.exceptions_of_le (Nat.sub_le _ _), hexceptions] at hlt

theorem smallerAt_of_not_sparse (hstate : accumulator.state ≠ .sparse) :
    accumulator.SmallerAt valueBytes := by
  intro deltas hdeltas
  exact absurd (state_eq_sparse_iff.mpr ⟨deltas, hdeltas⟩) hstate

/-- Choosing the storage anew is a step of the machine. -/
theorem Settles.step (h : Settles storable accumulator cells valueBytes (.done () next))
    (hholds : accumulator.Holds options cells) :
    SparsityState.Step (max options.checkRows 1) cells.length
      (DominantPays cells valueBytes options.minSparsity) accumulator.state next.state ∧
      next.SmallerAt valueBytes := by
  obtain rfl := hholds.options_eq
  cases h with
  | waits hstate hsize =>
    refine ⟨?_, smallerAt_of_not_sparse (by rw [hstate]; nofun)⟩
    rw [hstate]
    exact .waits hsize
  | staysDense hstate hsize hdominant hpays =>
    refine ⟨?_, smallerAt_of_not_sparse (by rw [hstate]; nofun)⟩
    rw [hstate]
    refine .staysDense hsize ?_
    rw [dominantPays_iff hdominant, hpays]
    nofun
  | turnsSparse hstate hsize hdominant hpays =>
    refine ⟨?_, smallerAt_of_pays hholds.size_eq hdominant hpays⟩
    rw [hstate]
    exact .turnsSparse hsize ((dominantPays_iff hdominant).mpr hpays)
  | staysSparse hstorage hpays =>
    refine ⟨?_, smallerAt_of_stillPays hholds hstorage hpays⟩
    rw [state_eq_sparse_iff.mpr ⟨_, hstorage⟩]
    exact .staysSparse
  | reverts hstorage hpays hkeys hcells =>
    refine ⟨?_, smallerAt_of_not_sparse nofun⟩
    rw [state_eq_sparse_iff.mpr ⟨_, hstorage⟩]
    exact .reverts
  | staysReverted hstate =>
    refine ⟨?_, smallerAt_of_not_sparse (by rw [hstate]; nofun)⟩
    rw [hstate]
    exact .staysReverted

section Steps

variable [LawfulTracked C] {start : Accumulator C} {pushes : List (C × Float)}

/-- A successful push is a step of the machine. -/
theorem Reached.step (h : accumulator.Reached storable options cells)
    (hpush : accumulator.push cell valueBytes = .done () next) :
    SparsityState.Step (max options.checkRows 1) (cells ++ [cell]).length
      (DominantPays (cells ++ [cell]) valueBytes options.minSparsity) accumulator.state next.state ∧
      next.SmallerAt valueBytes := by
  have hpushes := h.pushes cell valueBytes
  rw [hpush] at hpushes
  cases hpushes with
  | records hsize hcell hstate hrecorded hsettles =>
    rw [← hstate]
    exact hsettles.step hrecorded.toHolds

/-- A storable cell is added to those before, if there is a row left for it. The push can then only
fail for want of room. Before the storage is inspected it stays dense. -/
theorem push_cases (hstores : Tracked.Stores storable) (h : accumulator.Holds options cells)
    (hcells : ∀ other ∈ cells ++ [cell], storable other) (hsize : cells.length < rowLimit)
    (valueBytes : Float) :
    ∃ next : Accumulator C, next.Holds options (cells ++ [cell]) ∧
      (accumulator.push cell valueBytes).LeadsTo next (·.LacksRoom valueBytes) ∧
      (accumulator.state = .dense → cells.length + 1 < max options.checkRows 1 →
        next.state = .dense) := by
  obtain ⟨hbefore, hcell⟩ := List.forall_mem_append.mp hcells
  have hreached := h.reached hstores hbefore (Nat.le_of_lt hsize)
  cases hpush : accumulator.push cell valueBytes with
  | done answer next =>
    refine ⟨next, (hreached.of_done hpush).toHolds, .inl rfl, ?_⟩
    intro hdense hlt
    obtain ⟨hstep, -⟩ := hreached.step hpush
    rw [hdense] at hstep
    exact hstep.dense_before_check (by simpa using hlt)
  | refused fault next =>
    by_cases hfault : fault = .tooLarge
    · subst hfault
      obtain ⟨hnext, hlacks, hstate⟩ := hreached.of_tooLarge hpush
      exact ⟨next, hnext.toHolds, .inr ⟨rfl, hlacks⟩, fun hdense _ ↦ hstate.trans hdense⟩
    · obtain ⟨hfull, -⟩ :=
        hreached.of_refused hbefore (List.forall_mem_singleton.mp hcell) hpush hfault
      exact absurd hsize (Nat.not_lt.mpr hfull)

/-- After a run the accumulator holds the cells that were pushed, all of them storable. -/
theorem Run.reached (h : Run storable start pushes accumulator)
    (hstart : start.Reached storable options cells) (hcells : ∀ other ∈ cells, storable other) :
    accumulator.Reached storable options (cells ++ pushes.map Prod.fst) ∧
      ∀ other ∈ cells ++ pushes.map Prod.fst, storable other := by
  induction h with
  | start =>
    rw [List.map_nil, List.append_nil]
    exact ⟨hstart, hcells⟩
  | push h hcell hpush ih =>
    rw [List.map_append, ← List.append_assoc]
    exact ⟨ih.1.of_done hpush,
      List.forall_mem_append.mpr ⟨ih.2, List.forall_mem_singleton.mpr hcell⟩⟩
  | refused h hcell hpush hfault ih =>
    obtain ⟨-, rfl⟩ := ih.1.of_refused ih.2 hcell hpush hfault
    exact ih

/-- What is true at the start and kept by every successful push is true after a run. -/
theorem Run.preserves (h : Run storable start pushes accumulator)
    (P : List (C × Float) → Accumulator C → Prop) (hstart : start.Reached storable options cells)
    (hcells : ∀ other ∈ cells, storable other) (hbefore : P [] start)
    (hpush : ∀ {pushes : List (C × Float)} {accumulator next : Accumulator C} {cell : C}
      {valueBytes : Float}, accumulator.Reached storable options (cells ++ pushes.map Prod.fst) →
        P pushes accumulator → accumulator.push cell valueBytes = .done () next →
          P (pushes ++ [(cell, valueBytes)]) next) : P pushes accumulator := by
  induction h with
  | start => exact hbefore
  | push h hcell hdone ih => exact hpush (h.reached hstart hcells).1 ih hdone
  | refused h hcell hrefused hfault ih =>
    obtain ⟨hreached, hstorable⟩ := h.reached hstart hcells
    obtain ⟨-, rfl⟩ := hreached.of_refused hstorable hcell hrefused hfault
    exact ih

/-- Once the storage was inspected the machine leads from each state to all later ones. -/
theorem Run.leads (h : Run storable start pushes accumulator)
    (hstart : start.Reached storable options cells) (hcells : ∀ other ∈ cells, storable other)
    (hcheck : max options.checkRows 1 ≤ cells.length) : start.state.Leads accumulator.state := by
  refine h.preserves (fun _ accumulator ↦ start.state.Leads accumulator.state) hstart hcells
    (.refl _) ?_
  intro pushes accumulator next cell valueBytes hreached hleads hpush
  obtain ⟨hstep, -⟩ := hreached.step hpush
  refine hleads.trans (hstep.leads ?_)
  simp only [List.length_append, List.length_singleton]
  omega

section Started

variable (hstores : Tracked.Stores storable)

include hstores

/-- Before the check the storage is dense. -/
theorem Run.dense_before_check (h : Run storable start pushes accumulator)
    (hstart : ofOptions options = .ok start) :
    pushes.length < max options.checkRows 1 → accumulator.state = .dense := by
  refine h.preserves
    (fun pushes accumulator ↦ pushes.length < max options.checkRows 1 → accumulator.state = .dense)
    (reached_ofOptions hstores hstart) nofun ?_ ?_
  · intro _
    rw [eq_of_ofOptions hstart]
    rfl
  · intro pushes accumulator next cell valueBytes hreached hdense hpush hsize
    obtain ⟨hstep, -⟩ := hreached.step hpush
    rw [List.length_append, List.length_singleton] at hsize
    rw [hdense (Nat.lt_of_succ_lt hsize)] at hstep
    exact hstep.dense_before_check (by simpa using hsize)

/-- After the last push sparse storage is smaller at its cost. -/
theorem Run.smallerAt (h : Run storable start pushes accumulator)
    (hstart : ofOptions options = .ok start) : ∀ cell valueBytes,
      pushes.getLast? = some (cell, valueBytes) → accumulator.SmallerAt valueBytes := by
  refine h.preserves (fun pushes accumulator ↦ ∀ cell valueBytes,
    pushes.getLast? = some (cell, valueBytes) → accumulator.SmallerAt valueBytes)
    (reached_ofOptions hstores hstart) nofun nofun ?_
  intro pushes accumulator next cell valueBytes hreached _ hpush last lastBytes hlast
  obtain ⟨-, hsmaller⟩ := hreached.step hpush
  rw [List.getLast?_concat] at hlast
  cases hlast
  exact hsmaller

theorem Run.sparsityLaw (h : Run storable start pushes accumulator)
    (hstart : ofOptions options = .ok start) :
    accumulator.SparsityLaw storable options pushes := by
  obtain ⟨hreached, hcells⟩ := h.reached (reached_ofOptions hstores hstart) nofun
  rw [List.nil_append] at hreached hcells
  have hlength : (pushes.map Prod.fst).length = pushes.length := List.length_map _
  have hchecked (hstate : accumulator.state ≠ .dense) :
      max options.checkRows 1 ≤ (pushes.map Prod.fst).length := by
    rw [hlength]
    apply Nat.le_of_not_lt
    intro hlt
    exact hstate (h.dense_before_check hstores hstart hlt)
  have hstep {cell : C} {valueBytes : Float} {next : Accumulator C}
      (hpush : accumulator.push cell valueBytes = .done () next) :
      SparsityState.Step (max options.checkRows 1) (pushes.length + 1)
        (DominantPays (pushes.map Prod.fst ++ [cell]) valueBytes options.minSparsity)
          accumulator.state next.state := by
    obtain ⟨hstep, -⟩ := hreached.step hpush
    rwa [List.length_append, List.length_singleton, hlength] at hstep
  constructor
  case size_eq => rw [hreached.size_eq, hlength]
  case takes =>
    intro hroom hsize cell valueBytes hcell
    exact hreached.exists_done hcells hroom (hlength ▸ hsize) hcell valueBytes
  case dense_before_check => exact h.dense_before_check hstores hstart
  case at_check =>
    intro hsize cell valueBytes next hcell hpush
    have hdense : accumulator.state = .dense := h.dense_before_check hstores hstart (by omega)
    have hnext := hstep hpush
    rw [hdense] at hnext
    exact hnext.at_check hsize
  case sparse_only_at_check =>
    intro hstate cell valueBytes next hcell hpush hsparse
    have hnext := hstep hpush
    rw [hsparse] at hnext
    exact hnext.sparse_only_at_check hstate
  case dense_for_ever =>
    intro hcheck hstate more last hrun
    have hleads := hrun.leads hreached hcells (hlength ▸ hcheck)
    rwa [hstate] at hleads
  case sparse_or_reverted =>
    intro hstate more last hrun
    have hleads := hrun.leads hreached hcells (hchecked (by rw [hstate]; nofun))
    rw [hstate] at hleads
    cases hlast : last.state with
    | dense => exact absurd hlast hleads
    | sparse => exact .inl rfl
    | reverted => exact .inr rfl
  case reverted_for_ever =>
    intro hstate more last hrun
    have hleads := hrun.leads hreached hcells (hchecked (by rw [hstate]; nofun))
    rwa [hstate] at hleads
  case smaller => exact h.smallerAt hstores hstart

end Started

end Steps

/-- The law of sparsity for the four types of cells: all numbers, times and instants are storable,
and category indices up to the bound of the widest format. -/
theorem sparsityLaw_of_run (options : IngestOptions) :
    (∀ (start accumulator : Accumulator Binary64) (pushes : List (Binary64 × Float)),
      ofOptions options = .ok start → Run (fun _ ↦ True) start pushes accumulator →
        accumulator.SparsityLaw (fun _ ↦ True) options pushes) ∧
    (∀ (start accumulator : Accumulator Int) (pushes : List (Int × Float)),
      ofOptions options = .ok start → Run (fun _ ↦ True) start pushes accumulator →
        accumulator.SparsityLaw (fun _ ↦ True) options pushes) ∧
    (∀ (start accumulator : Accumulator (Option Instant)) (pushes : List (Option Instant × Float)),
      ofOptions options = .ok start → Run (fun _ ↦ True) start pushes accumulator →
        accumulator.SparsityLaw (fun _ ↦ True) options pushes) ∧
    ∀ (start accumulator : Accumulator Nat) (pushes : List (Nat × Float)),
      ofOptions options = .ok start → Run (· ≤ 2147483647) start pushes accumulator →
        accumulator.SparsityLaw (· ≤ 2147483647) options pushes :=
  ⟨fun _ _ _ hstart h ↦ h.sparsityLaw Tracked.stores_number hstart,
    fun _ _ _ hstart h ↦ h.sparsityLaw Tracked.stores_time hstart,
    fun _ _ _ hstart h ↦ h.sparsityLaw Tracked.stores_instant hstart,
    fun _ _ _ hstart h ↦ h.sparsityLaw Tracked.stores_index hstart⟩

/-- Three indices. The first turns the storage sparse, after the second it is still smaller, and
with the third it reverts for good. -/
theorem sparsityLaw_of_run_reverting :
    ∃ start sparse reverted : Accumulator Nat, ofOptions .sparseAtOnce = .ok start ∧
      Run (· ≤ 2147483647) start [(5, 8), (6, 8)] sparse ∧ sparse.state = .sparse ∧
      sparse.SmallerAt 8 ∧
      Run (· ≤ 2147483647) start [(5, 8), (6, 8), (7, 8)] reverted ∧ reverted.state = .reverted ∧
      ∀ more last, Run (· ≤ 2147483647) reverted more last → last.state = .reverted := by
  have hstart : ofOptions .sparseAtOnce = .ok (⟨.sparseAtOnce, 0, .dense Tracked.emptyBuffer⟩ :
      Accumulator Nat) := rfl
  have hfirst : (⟨.sparseAtOnce, 0, .dense Tracked.emptyBuffer⟩ : Accumulator Nat).push 5 8 =
      .done () ⟨.sparseAtOnce, 1, .sparse ⟨5, #[]⟩⟩ :=
    push_turns_sparse (Tracked.accepts_index (by decide)) rfl (by decide)
  have hsecond : (⟨.sparseAtOnce, 1, .sparse ⟨5, #[]⟩⟩ : Accumulator Nat).push 6 8 =
      .done () ⟨.sparseAtOnce, 2, .sparse ⟨5, #[(1, 6)]⟩⟩ := rfl
  have hthird : ∃ buffer,
      (⟨.sparseAtOnce, 2, .sparse ⟨5, #[(1, 6)]⟩⟩ : Accumulator Nat).push 7 8 =
        .done () ⟨.sparseAtOnce, 3, .reverted buffer⟩ := ⟨_, rfl⟩
  obtain ⟨buffer, hthird⟩ := hthird
  have hsparse : Run (· ≤ 2147483647) _ [(5, 8), (6, 8)] _ :=
    .push (.push .start (by decide) hfirst) (by decide) hsecond
  have hreverted : Run (· ≤ 2147483647) _ [(5, 8), (6, 8), (7, 8)] _ :=
    .push hsparse (by decide) hthird
  have hlaw := (sparsityLaw_of_run .sparseAtOnce).2.2.2
  exact ⟨_, _, _, hstart, hsparse, rfl, (hlaw _ _ _ hstart hsparse).smaller 6 8 rfl, hreverted, rfl,
    (hlaw _ _ _ hstart hreverted).reverted_for_ever rfl⟩

end Accumulator

end Columnar
