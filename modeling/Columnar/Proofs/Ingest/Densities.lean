import Columnar.Proofs.Column.Reaching
import Columnar.Proofs.Ingest.Refusals
import Mathlib.Data.List.Basic
import Mathlib.Data.Nat.PSub

/-!
# The dominant cell and the densities made of it

Of a sequence that is not empty, the dominant cell is the one that `Dominates` it: its key occurs
most often, it is the first cell with its key, and of the keys that occur as often none appears
before its own. There is only one such cell (`Dominates.unique`), so this characterizes `dominant?`.

In particular no more cells have the dominant key than there are cells. A `Sized` accumulator has no
more exceptions than cells either, and a well-formed sparse store no more than rows. So no density
that is made while cells are accumulated, finished or derived counts more default rows than rows,
and no number of rows is less than what is subtracted from it. To state this, each program that
makes a density has a twin here that checks both and has no answer where a check fails; the twins
always answer, as the programs do.
-/

set_option autoImplicit false
set_option relaxedAutoImplicit false

namespace Columnar

section Dominant

variable {C : Type} [Tracked C] {cells : List C} {cell other : C} {count : Nat}

/-- The cell is the earliest of the most frequent ones, and `count` cells have its key. -/
structure Dominates (cells : List C) (cell : C) (count : Nat) : Prop where
  count_eq : (cells.map Tracked.key).count (Tracked.key cell) = count
  most : ∀ key : Tracked.Key C, (cells.map Tracked.key).count key ≤ count
  /-- It is the first cell with its key. -/
  first : cells[(cells.map Tracked.key).idxOf (Tracked.key cell)]? = some cell
  /-- Every other key that occurs as often first appears after it. -/
  earliest : ∀ key : Tracked.Key C, key ≠ Tracked.key cell →
    (cells.map Tracked.key).count key = count →
      (cells.map Tracked.key).idxOf (Tracked.key cell) < (cells.map Tracked.key).idxOf key

/-- What there is to know of the dominant cell of a sequence. -/
structure DominantLaw (cells : List C) : Prop where
  eq_none_iff : dominant? cells = none ↔ cells = []
  eq_some_iff : ∀ (cell : C) (count : Nat),
    dominant? cells = some (cell, count) ↔ Dominates cells cell count
  count_le : ∀ (cell : C) (count : Nat), dominant? cells = some (cell, count) →
    count ≤ cells.length

theorem Dominates.count_le_length (h : Dominates cells cell count) : count ≤ cells.length := by
  have hle : (cells.map Tracked.key).count (Tracked.key cell) ≤ (cells.map Tracked.key).length :=
    List.count_le_length
  rwa [h.count_eq, List.length_map] at hle

/-- No other cell dominates the same sequence. -/
theorem Dominates.unique {most : Nat} (hcell : Dominates cells cell count)
    (hother : Dominates cells other most) : cell = other ∧ count = most := by
  have hcount : count = most := by
    refine Nat.le_antisymm ?_ ?_
    · rw [← hcell.count_eq]
      exact hother.most _
    · rw [← hother.count_eq]
      exact hcell.most _
  subst hcount
  have hkey : Tracked.key cell = Tracked.key other := by
    by_contra hne
    have hbefore := hcell.earliest _ (Ne.symm hne) hother.count_eq
    have hafter := hother.earliest _ hne hcell.count_eq
    exact Nat.lt_asymm hbefore hafter
  have hfirst := hcell.first
  rw [hkey, hother.first] at hfirst
  exact ⟨(Option.some.inj hfirst).symm, rfl⟩

/-- The first of the cells whose keys occur most often dominates. -/
theorem FirstMaximum.dominates (h : FirstMaximum (occurrences cells) cells cell) :
    Dominates cells cell (occurrences cells cell) := by
  have hle {key : Tracked.Key C} (hkey : key ∈ cells.map Tracked.key) :
      (cells.map Tracked.key).count key ≤ occurrences cells cell := by
    obtain ⟨other, hother, rfl⟩ := List.mem_map.mp hkey
    exact h.le hother
  obtain ⟨before, after, hcells, hbefore, -⟩ := h
  -- A key that occurs as often cannot occur before, where all keys are rarer.
  have hnew {key : Tracked.Key C}
      (hcount : (cells.map Tracked.key).count key = occurrences cells cell) :
      key ∉ before.map Tracked.key := by
    intro hmem
    obtain ⟨other, hother, rfl⟩ := List.mem_map.mp hmem
    exact Nat.lt_irrefl _ (hcount ▸ hbefore other hother)
  have hplace (key : Tracked.Key C) (hkey : key ∉ before.map Tracked.key) :
      (cells.map Tracked.key).idxOf key =
        before.length + ((cell :: after).map Tracked.key).idxOf key := by
    rw [hcells, List.map_append, List.idxOf_append_of_notMem hkey, List.length_map]
  have hself : (cells.map Tracked.key).idxOf (Tracked.key cell) = before.length := by
    rw [hplace _ (hnew rfl), List.map_cons, List.idxOf_cons_self, Nat.add_zero]
  constructor
  case count_eq => rfl
  case most =>
    intro key
    by_cases hkey : key ∈ cells.map Tracked.key
    · exact hle hkey
    · rw [List.count_eq_zero_of_not_mem hkey]
      exact Nat.zero_le _
  case first =>
    rw [hself, hcells, List.getElem?_append_right (Nat.le_refl _), Nat.sub_self]
    rfl
  case earliest =>
    intro key hne hcount
    rw [hself, hplace key (hnew hcount), List.map_cons, List.idxOf_cons_ne _ (Ne.symm hne)]
    omega

theorem dominant?_eq_some_iff :
    dominant? cells = some (cell, count) ↔ Dominates cells cell count := by
  have hdominates {cell : C} {count : Nat} (h : dominant? cells = some (cell, count)) :
      Dominates cells cell count := by
    obtain ⟨rfl, hmaximum⟩ := dominant?_eq_some h
    exact hmaximum.dominates
  refine ⟨hdominates, fun h ↦ ?_⟩
  cases hdominant : dominant? cells with
  | none =>
    have hfirst := h.first
    rw [dominant?_eq_none hdominant] at hfirst
    contradiction
  | some best =>
    obtain ⟨rfl, rfl⟩ := h.unique (hdominates hdominant)
    rfl

theorem le_length_of_dominant? (h : dominant? cells = some (cell, count)) :
    count ≤ cells.length := (dominant?_eq_some_iff.mp h).count_le_length

theorem dominantLaw (cells : List C) : DominantLaw cells where
  eq_none_iff := ⟨dominant?_eq_none, fun h ↦ h ▸ rfl⟩
  eq_some_iff _ _ := dominant?_eq_some_iff
  count_le _ _ := le_length_of_dominant?

end Dominant

/-! ### Checked densities -/

namespace Density

variable {rows defaultCount : Nat}

/-- As `exceptions`, if there are no more default rows than rows. -/
def exceptions? (density : Density) : Option Nat := Nat.psub density.rows density.defaultCount

/-- As `sparsePaysOff`, with the subtraction checked. -/
def sparsePaysOff? (density : Density) (valueBytes minSparsity : Float) : Option Bool :=
  if density.rows = 0 || density.sparsity < minSparsity then some false
  else density.exceptions?.map fun exceptions ↦
    count exceptions * (positionBytes + valueBytes) < count density.rows * valueBytes

/-- Whether sparse storage pays for so many rows, so many of which hold the default. -/
def pays? (rows defaultCount : Nat) (valueBytes minSparsity : Float) : Option Bool :=
  (ofCounts? rows defaultCount).bind fun density ↦ density.sparsePaysOff? valueBytes minSparsity

theorem exceptions?_eq_some (h : defaultCount ≤ rows) :
    (⟨rows, defaultCount⟩ : Density).exceptions? = some (rows - defaultCount) :=
  Nat.psub_eq_some.mpr (Nat.sub_add_cancel h)

theorem pays?_eq_some (h : defaultCount ≤ rows) (valueBytes minSparsity : Float) :
    pays? rows defaultCount valueBytes minSparsity =
      some ((⟨rows, defaultCount⟩ : Density).sparsePaysOff valueBytes minSparsity) := by
  rw [pays?, ofCounts?, if_pos h, Option.bind_some]
  unfold sparsePaysOff? sparsePaysOff
  rw [exceptions?_eq_some h, exceptions_of_le h, Option.map_some]
  split <;> rfl

/-- The rows that are left when the exceptions are taken away hold the default. -/
theorem pays?_sub (exceptions : Nat) (h : exceptions ≤ rows) (valueBytes minSparsity : Float) :
    ((Nat.psub rows exceptions).bind fun defaultCount ↦
        pays? rows defaultCount valueBytes minSparsity) =
      some ((⟨rows, rows - exceptions⟩ : Density).sparsePaysOff valueBytes minSparsity) := by
  rw [Nat.psub_eq_some.mpr (Nat.sub_add_cancel h), Option.bind_some]
  exact pays?_eq_some (Nat.sub_le _ _) _ _

end Density

/-! ### Accumulators -/

namespace Accumulator

section Checked

variable {C : Type} [Tracked C]

/-- As `inspect`, with the density checked. -/
def inspect? (accumulator : Accumulator C) (buffer : Tracked.Buffer C) (valueBytes : Float) :
    Option (Attempt (Accumulator C) Unit) :=
  let cells := Tracked.contents buffer
  match dominant? cells with
  | some (default, count) =>
    (Density.pays? cells.length count valueBytes accumulator.options.minSparsity).map fun pays ↦
      if pays then .done () { accumulator with storage := .sparse (.encode default cells) }
      else
        .ofOutcome accumulator
          (Word.requireRoom accumulator.options.expected (Tracked.sizeLimit buffer))
  | none => some (.done () accumulator)

/-- As `stillPays`, with the density checked. -/
def stillPays? (accumulator : Accumulator C) (deltas : Deltas C) (valueBytes : Float) :
    Option Bool :=
  (Nat.psub accumulator.size deltas.exceptions.size).bind fun defaultCount ↦
    Density.pays? accumulator.size defaultCount valueBytes 0

/-- As `settle`, with every density checked. -/
def settle? (accumulator : Accumulator C) (valueBytes : Float) :
    Option (Attempt (Accumulator C) Unit) :=
  match accumulator.storage with
  | .dense buffer =>
    if accumulator.size = max accumulator.options.checkRows 1 then
      accumulator.inspect? buffer valueBytes
    else some (.done () accumulator)
  | .sparse deltas =>
    (accumulator.stillPays? deltas valueBytes).map fun pays ↦
      if pays then .done () accumulator
      else
        let capacity := max accumulator.size accumulator.options.expected
        match Tracked.bufferOf capacity (deltas.toList accumulator.size) with
        | .ok buffer => .done () { accumulator with storage := .reverted buffer }
        | .error fault => .refused fault accumulator
  | .reverted _ => some (.done () accumulator)

/-- As `push`, with every density checked. -/
def push? : Accumulator C → C → Float → Option (Attempt (Accumulator C) Unit)
  | ⟨options, size, storage⟩, cell, valueBytes =>
    if rowLimit ≤ size then some (.refused (.outOfBounds size rowLimit) ⟨options, size, storage⟩)
    else
      match storage.record size cell with
      | .done () storage => settle? ⟨options, size + 1, storage⟩ valueBytes
      | .refused fault storage => some (.refused fault ⟨options, size, storage⟩)

/-- As `finalDefault?`, with the density checked. -/
def checkedFinalDefault (accumulator : Accumulator C) (final : FinalLayout) (valueBytes : Float) :
    Option (Option C) :=
  match final with
  | .dense => some none
  | .sparse => some (some ((dominant? accumulator.toList).elim Cell.missing Prod.fst))
  | .auto =>
    match dominant? accumulator.toList with
    | some (default, count) =>
      (Density.pays? accumulator.size count valueBytes accumulator.options.minSparsity).map
        fun pays ↦ if pays then some default else none
    | none => some none

/-- The accumulator has as many cells as it counts, and no more exceptions. -/
structure Sized (accumulator : Accumulator C) : Prop where
  length_toList : accumulator.toList.length = accumulator.size
  exceptions_le : ∀ deltas, accumulator.storage = .sparse deltas →
    deltas.exceptions.size ≤ accumulator.size

/-- No check fails when a cell is pushed, whatever it costs, or when the final default is chosen. -/
structure NeverUnderflows (accumulator : Accumulator C) : Prop where
  push?_eq : ∀ cell valueBytes,
    accumulator.push? cell valueBytes = some (accumulator.push cell valueBytes)
  checkedFinalDefault_eq : ∀ final valueBytes, accumulator.checkedFinalDefault final valueBytes =
    some (accumulator.finalDefault? final valueBytes)

variable {accumulator : Accumulator C}

theorem inspect?_eq_some (accumulator : Accumulator C) (buffer : Tracked.Buffer C)
    (valueBytes : Float) :
    accumulator.inspect? buffer valueBytes = some (accumulator.inspect buffer valueBytes) := by
  unfold inspect? inspect
  cases hdominant : dominant? (Tracked.contents buffer) with
  | none => simp only [hdominant]
  | some best =>
    obtain ⟨default, count⟩ := best
    simp only [hdominant, Density.pays?_eq_some (le_length_of_dominant? hdominant),
      Option.map_some]

theorem Sized.settle?_eq_some (h : accumulator.Sized) (valueBytes : Float) :
    accumulator.settle? valueBytes = some (accumulator.settle valueBytes) := by
  unfold settle? settle
  cases hstorage : accumulator.storage with
  | dense buffer =>
    simp only [inspect?_eq_some]
    split <;> rfl
  | sparse deltas =>
    have hpays : accumulator.stillPays? deltas valueBytes =
        some (accumulator.stillPays deltas valueBytes) :=
      Density.pays?_sub _ (h.exceptions_le deltas hstorage) valueBytes 0
    exact congrArg (Option.map _) hpays
  | reverted buffer => rfl

theorem Sized.checkedFinalDefault_eq (h : accumulator.Sized) (final : FinalLayout)
    (valueBytes : Float) :
    accumulator.checkedFinalDefault final valueBytes =
      some (accumulator.finalDefault? final valueBytes) := by
  cases final with
  | dense => rfl
  | sparse => rfl
  | auto =>
    unfold checkedFinalDefault finalDefault?
    cases hdominant : dominant? accumulator.toList with
    | none => rfl
    | some best =>
      obtain ⟨default, count⟩ := best
      have hcount : count ≤ accumulator.size :=
        h.length_toList ▸ le_length_of_dominant? hdominant
      simp only [Density.pays?_eq_some hcount, Option.map_some]

end Checked

section Reached

variable {C : Type} [Tracked C] [LawfulTracked C] {storable : C → Prop}
  {accumulator : Accumulator C} {options : IngestOptions} {cells : List C}

/-- Whatever it was given, an accumulator is sized. -/
theorem Reached.sized (h : accumulator.Reached storable options cells) : accumulator.Sized := by
  constructor
  case length_toList =>
    have hlength := congrArg List.length h.map_key_toList
    rw [List.length_map, List.length_map] at hlength
    rw [hlength, h.size_eq]
  case exceptions_le =>
    intro deltas hdeltas
    obtain ⟨default, -, rfl⟩ := h.exists_eq_encode hdeltas
    show (deviations (Tracked.sameKey · default) cells).toArray.size ≤ accumulator.size
    rw [List.size_toArray, deviations_eq_pickedFrom, h.size_eq]
    exact length_pickedFrom_le _ _

theorem Reached.push?_eq_some (h : accumulator.Reached storable options cells) (cell : C)
    (valueBytes : Float) :
    accumulator.push? cell valueBytes = some (accumulator.push cell valueBytes) := by
  have hrecord (hsize : cells.length < rowLimit) := h.record_cases hsize cell
  obtain ⟨options', size, storage⟩ := accumulator
  obtain rfl : options' = options := h.options_eq
  obtain rfl : size = cells.length := h.size_eq
  unfold push? push
  by_cases hsize : rowLimit ≤ cells.length
  · simp only [if_pos hsize]
  · simp only [if_neg hsize]
    -- The density is made after the cell was recorded, and before the storage is chosen anew.
    rcases hrecord (Nat.lt_of_not_le hsize) with
      ⟨-, -, fault, -, hrefused⟩ | ⟨-, next, hdone, hnext⟩
    · simp only [hrefused]
    · simp only [hdone]
      exact hnext.sized.settle?_eq_some valueBytes

theorem Reachable.neverUnderflows (hstores : Tracked.Stores storable)
    (h : Reachable options accumulator) : accumulator.NeverUnderflows := by
  obtain ⟨cells, hreached⟩ := h.exists_reached hstores
  exact ⟨hreached.push?_eq_some, hreached.sized.checkedFinalDefault_eq⟩

end Reached

end Accumulator

/-! ### Sparse stores -/

section Sparse

variable {S C : Type}

namespace SparseStore

/-- As `density`, with the subtraction and the density checked. -/
def density? (sparse : SparseStore S C) : Option Density :=
  (Nat.psub sparse.size sparse.exceptionCount).bind (Density.ofCounts? sparse.size)

/-- The density of the store is one, and leaves its exceptions. -/
structure DensityLaw (sparse : SparseStore S C) : Prop where
  exceptionCount_le : sparse.exceptionCount ≤ sparse.size
  density?_eq : sparse.density? = some sparse.density
  exceptions?_eq : sparse.density.exceptions? = some sparse.exceptionCount

theorem densityLaw_of_le {sparse : SparseStore S C} (h : sparse.exceptionCount ≤ sparse.size) :
    sparse.DensityLaw := by
  refine ⟨h, ?_, ?_⟩
  · unfold density? Density.ofCounts?
    rw [Nat.psub_eq_some.mpr (Nat.sub_add_cancel h), Option.bind_some, if_pos (Nat.sub_le _ _)]
    rfl
  · unfold density
    rw [Density.exceptions?_eq_some (Nat.sub_le _ _), Nat.sub_sub_self h]

end SparseStore

variable [Cell C] [Store S C]

theorem SparseStore.WellFormed.densityLaw {sparse : SparseStore S C} (h : sparse.WellFormed) :
    sparse.DensityLaw := SparseStore.densityLaw_of_le (SparseStore.toList_perm h).1

namespace Layout

/-- The sparse store of the layout, if it has one, obeys the law. -/
def DensityLaw : Layout S C → Prop
  | sparse source => source.DensityLaw
  | _ => True

/-- As `ofSparse`, with the density checked. -/
def ofSparse? (sparse : SparseStore S C) (mapping : Mapping) : Option (Outcome (Layout S C)) :=
  let shown := sparse.shownDeviations mapping
  let rows := mapping.size
  let pays? := (Nat.psub rows shown.length).bind fun defaultCount ↦
    Density.pays? rows defaultCount (Store.valueBytes sparse.exceptions) defaultMinSparsity
  pays?.map fun pays ↦ do
    let exceptions ← Store.collect sparse.exceptions shown.length (shown.map Prod.snd)
    if pays then
      let derived ← SparseStore.ofExceptions sparse.default rows (shown.map Prod.fst) exceptions
      return .sparse derived
    let derived : SparseStore S C :=
      ⟨sparse.default, rows, (shown.map Prod.fst).toArray, exceptions⟩
    return .dense (← Store.collect sparse.exceptions rows derived.toList)

theorem ofSparse?_eq_some (sparse : SparseStore S C) (mapping : Mapping) :
    ofSparse? sparse mapping = some (ofSparse sparse mapping) := by
  have hshown : (sparse.shownDeviations mapping).length ≤ mapping.size := by
    rw [shownDeviations_eq_pickedFrom]
    refine Nat.le_trans (length_pickedFrom_le _ _) ?_
    rw [Mapping.toList, Array.length_toList]
    rfl
  unfold ofSparse?
  simp only [Density.pays?_sub _ hshown, Option.map_some]
  rfl

end Layout

end Sparse

/-- A sequence is dominated by its earliest most frequent cell, and not more cells have its key than
there are. So whatever is pushed onto an accumulator, in whatever layout it ends, and whichever
sparse store a constructor accepts or a column has and derives, there are never more default rows or
exceptions than rows. -/
theorem dominant_and_densities :
    (∀ (C : Type) [Tracked C] (cells : List C), DominantLaw cells) ∧
    (∀ options : IngestOptions,
      (∀ accumulator : Accumulator Binary64, Accumulator.Reachable options accumulator →
        accumulator.NeverUnderflows) ∧
      (∀ accumulator : Accumulator Int, Accumulator.Reachable options accumulator →
        accumulator.NeverUnderflows) ∧
      (∀ accumulator : Accumulator (Option Instant), Accumulator.Reachable options accumulator →
        accumulator.NeverUnderflows) ∧
      ∀ accumulator : Accumulator Nat, Accumulator.Reachable options accumulator →
        accumulator.NeverUnderflows) ∧
    (∀ (S C : Type) [Cell C] [Store S C] (sparse : SparseStore S C),
      (sparse.Accepted → sparse.DensityLaw) ∧
        ∀ mapping, Layout.ofSparse? sparse mapping = some (Layout.ofSparse sparse mapping)) ∧
    ∀ column : Column, column.Reachable → column.data.onLayout fun layout ↦ layout.DensityLaw := by
  refine ⟨fun _ _ ↦ dominantLaw, fun options ↦ ?_, fun S C _ _ sparse ↦ ?_, fun column h ↦ ?_⟩
  · exact ⟨fun _ h ↦ h.neverUnderflows Tracked.stores_number,
      fun _ h ↦ h.neverUnderflows Tracked.stores_time,
      fun _ h ↦ h.neverUnderflows Tracked.stores_instant,
      fun _ h ↦ h.neverUnderflows Tracked.stores_index⟩
  · exact ⟨fun h ↦ h.wellFormed.densityLaw, Layout.ofSparse?_eq_some sparse⟩
  · refine ColumnData.onLayout_imp h.formed fun layout hformed ↦ ?_
    cases layout with
    | sparse source => exact SparseStore.WellFormed.densityLaw hformed
    | _ => trivial

/-- Of two cells that occur twice, the first dominates. An accumulator that has just turned sparse
takes an exception, and a sparse store of four rows has two. -/
theorem dominant_and_densities_tie :
    Dominates [2, 1, 1, 2] 2 2 ∧
    (∃ accumulator : Accumulator Int, accumulator.state = .sparse ∧
      accumulator.push? 7 8 = some (accumulator.push 7 8) ∧
      accumulator.checkedFinalDefault .auto 8 = some (accumulator.finalDefault? .auto 8)) ∧
    ∃ (sparse : SparseStore TimeStore Int) (column : Column),
      SparseStore.ofExceptions 0 4 [1, 3] (TimeStore.mk #[5, 6]) = .ok sparse ∧
      Column.ofData .time (.times (.sparse sparse)) = .ok column ∧
      sparse.density? = some ⟨4, 2⟩ ∧
      (Layout.ofSparse? sparse ⟨#[3, 3]⟩).isSome ∧
      column.data.onLayout fun layout ↦ layout.DensityLaw := by
  obtain ⟨hdominant, haccumulators, hstores, hcolumns⟩ := dominant_and_densities
  refine ⟨((hdominant Nat [2, 1, 1, 2]).eq_some_iff 2 2).mp ?_, ?_, ?_⟩
  · rw [dominant?_eq_foldl]
    decide
  · let options : IngestOptions := { checkRows := 1 }
    have hstart : Accumulator.Reachable options
        (⟨options, 0, .dense Tracked.emptyBuffer⟩ : Accumulator Int) := .start rfl
    have hpush : (⟨options, 0, .dense Tracked.emptyBuffer⟩ : Accumulator Int).push 0 8 =
        .done () ⟨options, 1, .sparse ⟨0, #[]⟩⟩ := by
      have hpays : (⟨1, 1⟩ : Density).sparsePaysOff 8 defaultMinSparsity = true := by decide
      have hcontents : Tracked.contents (Tracked.append Tracked.emptyBuffer (0 : Int)).state =
          [0] := rfl
      rw [Accumulator.push, if_neg (by decide)]
      show Accumulator.inspect _ (Tracked.append Tracked.emptyBuffer (0 : Int)).state 8 = _
      unfold Accumulator.inspect
      rw [hcontents]
      simp only [dominant?_singleton]
      exact if_pos hpays
    have hreached := hstart.push 0 8
    rw [hpush] at hreached
    have hlaw := (haccumulators options).2.1 _ hreached
    exact ⟨_, rfl, hlaw.push?_eq 7 8, hlaw.checkedFinalDefault_eq .auto 8⟩
  · obtain ⟨sparse, hsparse⟩ : ∃ sparse : SparseStore TimeStore Int,
        SparseStore.ofExceptions 0 4 [1, 3] (TimeStore.mk #[5, 6]) = .ok sparse := ⟨_, rfl⟩
    obtain ⟨column, hcolumn⟩ : ∃ column,
        Column.ofData .time (.times (.sparse sparse)) = .ok column := ⟨_, rfl⟩
    have haccepted : sparse.Accepted := .ofExceptions hsparse
    have hdata : (ColumnData.times (.sparse sparse)).Accepted := ⟨haccepted, trivial⟩
    have hlaw := (hstores TimeStore Int sparse).1 haccepted
    refine ⟨sparse, column, hsparse, hcolumn, ?_, ?_, ?_⟩
    · rw [hlaw.density?_eq]
      cases hsparse
      rfl
    · rw [(hstores TimeStore Int sparse).2]
      rfl
    · exact hcolumns column (.ofData hdata hcolumn)

end Columnar
