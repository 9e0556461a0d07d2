import Mathlib.Data.List.Induction
import Columnar.Ingest.Census

/-!
# The dominant cell

`tally` counts every key (`getD_tally`), and the dominant cell is the first of the cells whose keys
occur most often (`dominant?_eq_some`). Only keys count: sequences with the same keys have the same
dominant key (`dominant?_congr`).
-/

set_option autoImplicit false
set_option relaxedAutoImplicit false

namespace Columnar

/-! ### First maxima -/

section FirstMaximum

variable {α β : Type}

/-- The first of the items of largest weight. -/
def FirstMaximum (weight : α → Nat) (items : List α) (item : α) : Prop :=
  ∃ before after, items = before ++ item :: after ∧
    (∀ other ∈ before, weight other < weight item) ∧ ∀ other ∈ after, weight other ≤ weight item

variable {weight : α → Nat} {items : List α} {item : α}

theorem FirstMaximum.mem (h : FirstMaximum weight items item) : item ∈ items := by
  obtain ⟨before, after, rfl, -, -⟩ := h
  simp

theorem FirstMaximum.le (h : FirstMaximum weight items item) {other : α} (hother : other ∈ items) :
    weight other ≤ weight item := by
  obtain ⟨before, after, rfl, hbefore, hafter⟩ := h
  rcases List.mem_append.mp hother with hmem | hmem
  · exact Nat.le_of_lt (hbefore other hmem)
  · rcases List.mem_cons.mp hmem with rfl | hmem
    · exact Nat.le_refl _
    · exact hafter other hmem

/-- A lighter or equal item at the end changes nothing. -/
theorem FirstMaximum.append_of_le (h : FirstMaximum weight items item) {last : α}
    (hle : weight last ≤ weight item) : FirstMaximum weight (items ++ [last]) item := by
  obtain ⟨before, after, rfl, hbefore, hafter⟩ := h
  refine ⟨before, after ++ [last], by simp, hbefore, fun other hother ↦ ?_⟩
  rcases List.mem_append.mp hother with hmem | hmem
  · exact hafter other hmem
  · rw [List.mem_singleton.mp hmem]
    exact hle

/-- A heavier item at the end takes over. -/
theorem FirstMaximum.append_of_lt (h : FirstMaximum weight items item) {last : α}
    (hlt : weight item < weight last) : FirstMaximum weight (items ++ [last]) last :=
  ⟨items, [], rfl, fun _ hother ↦ Nat.lt_of_le_of_lt (h.le hother) hlt, nofun⟩

/-- A sequence has one first maximum. -/
theorem FirstMaximum.unique {other : α} (hitem : FirstMaximum weight items item)
    (hother : FirstMaximum weight items other) : item = other := by
  obtain ⟨before, after, rfl, hbefore, hafter⟩ := hitem
  obtain ⟨before', after', heq, hbefore', hafter'⟩ := hother
  rcases List.append_eq_append_iff.mp heq with ⟨middle, hfront, hback⟩ | ⟨middle, hfront, hback⟩
  · cases middle with
    | nil => exact (List.cons.inj hback).1
    | cons first rest =>
      obtain ⟨rfl, rfl⟩ := List.cons.inj hback
      have hlt := hbefore' item (hfront ▸ by simp)
      have hle := hafter other (by simp)
      omega
  · cases middle with
    | nil => exact (List.cons.inj hback).1.symm
    | cons first rest =>
      obtain ⟨rfl, rfl⟩ := List.cons.inj hback
      have hlt := hbefore other (hfront ▸ by simp)
      have hle := hafter' item (by simp)
      omega

theorem FirstMaximum.map {weight' : β → Nat} {f : α → β} (h : FirstMaximum weight items item)
    (hweight : ∀ item ∈ items, weight' (f item) = weight item) :
    FirstMaximum weight' (items.map f) (f item) := by
  have hitem := hweight item h.mem
  obtain ⟨before, after, rfl, hbefore, hafter⟩ := h
  refine ⟨before.map f, after.map f, by simp, fun other hother ↦ ?_, fun other hother ↦ ?_⟩
  · obtain ⟨source, hsource, rfl⟩ := List.mem_map.mp hother
    rw [hweight source (by simp [hsource]), hitem]
    exact hbefore source hsource
  · obtain ⟨source, hsource, rfl⟩ := List.mem_map.mp hother
    rw [hweight source (by simp [hsource]), hitem]
    exact hafter source hsource

/-- The better of the best item so far, with its weight, and the next one. -/
def keepBest (weight : α → Nat) (best : Option (α × Nat)) (item : α) : Option (α × Nat) :=
  match best with
  | some (_, most) => if most < weight item then some (item, weight item) else best
  | none => some (item, weight item)

/-- The best item is the first maximum of the items seen. -/
def BestOf (weight : α → Nat) (seen : List α) : Option (α × Nat) → Prop
  | some (item, most) => most = weight item ∧ FirstMaximum weight seen item
  | none => seen = []

/-- Keeping the best item while going through a sequence finds its first maximum. -/
theorem bestOf_foldl {seen : List α} {best : Option (α × Nat)} (hbest : BestOf weight seen best)
    (rest : List α) : BestOf weight (seen ++ rest) (rest.foldl (keepBest weight) best) := by
  induction rest generalizing seen best with
  | nil => simpa using hbest
  | cons next rest ih =>
    rw [List.foldl_cons, List.append_cons]
    apply ih
    cases best with
    | none =>
      have hseen : seen = [] := hbest
      exact ⟨rfl, seen, [], rfl, by simp [hseen], nofun⟩
    | some best =>
      obtain ⟨item, most⟩ := best
      obtain ⟨rfl, hmaximum⟩ := hbest
      unfold keepBest
      by_cases hlt : weight item < weight next
      · simp only [if_pos hlt]
        exact ⟨rfl, hmaximum.append_of_lt hlt⟩
      · simp only [if_neg hlt]
        exact ⟨rfl, hmaximum.append_of_le (Nat.not_lt.mp hlt)⟩

/-- Counting by either of two labels comes to the same when they tell the same items apart. -/
theorem count_map_eq_count_map {γ : Type} [DecidableEq β] [DecidableEq γ] {f : α → β} {g : α → γ}
    (h : ∀ other ∈ items, f other = f item ↔ g other = g item) :
    (items.map f).count (f item) = (items.map g).count (g item) := by
  induction items with
  | nil => rfl
  | cons head rest ih =>
    have hhead := h head List.mem_cons_self
    have hrest := ih fun other hother ↦ h other (List.mem_cons_of_mem _ hother)
    simp only [List.map_cons, List.count_cons, beq_iff_eq, hrest, hhead]

end FirstMaximum

/-! ### First cells -/

variable {C : Type} [Tracked C]

/-- How many of the cells have the key of this one. -/
def occurrences (cells : List C) (cell : C) : Nat :=
  (cells.map Tracked.key).count (Tracked.key cell)

theorem occurrences_append_singleton (cells : List C) (last cell : C) :
    occurrences (cells ++ [last]) cell =
      occurrences cells cell + if Tracked.key last = Tracked.key cell then 1 else 0 := by
  simp [occurrences, List.count_singleton]

/-- The first cell of every key, in the order of appearance. -/
def firstCells (cells : List C) : List C :=
  cells.foldl
    (fun firsts cell ↦
      if Tracked.key cell ∈ firsts.map Tracked.key then firsts else firsts ++ [cell]) []

theorem firstCells_append_singleton (cells : List C) (last : C) :
    firstCells (cells ++ [last]) =
      if Tracked.key last ∈ (firstCells cells).map Tracked.key then firstCells cells
      else firstCells cells ++ [last] := by
  rw [firstCells, List.foldl_append]
  rfl

theorem mem_keys_firstCells {cells : List C} {key : Tracked.Key C} :
    key ∈ (firstCells cells).map Tracked.key ↔ key ∈ cells.map Tracked.key := by
  induction cells using List.reverseRecOn with
  | nil => rfl
  | append_singleton cells last ih =>
    rw [firstCells_append_singleton, List.map_append, List.mem_append, ← ih]
    split
    · next hlast =>
      refine (or_iff_left_of_imp fun hkey ↦ ?_).symm
      rwa [List.mem_singleton.mp hkey]
    · rw [List.map_append, List.mem_append]

/-- A cell that comes after the first of its key is never better. -/
theorem foldl_firstCells {weight : C → Nat}
    (hweight : ∀ first second : C, Tracked.key first = Tracked.key second →
      weight first = weight second) (cells : List C) :
    (firstCells cells).foldl (keepBest weight) none = cells.foldl (keepBest weight) none := by
  induction cells using List.reverseRecOn with
  | nil => rfl
  | append_singleton cells last ih =>
    rw [firstCells_append_singleton, List.foldl_append, ← ih, List.foldl_cons, List.foldl_nil]
    split
    · next hlast =>
      obtain ⟨other, hother, hkey⟩ := List.mem_map.mp hlast
      have hbest : BestOf weight (firstCells cells) _ :=
        @bestOf_foldl C weight [] none rfl (firstCells cells)
      cases hfold : (firstCells cells).foldl (keepBest weight) none with
      | none =>
        rw [hfold] at hbest
        exact absurd (hbest ▸ hother) List.not_mem_nil
      | some best =>
        obtain ⟨item, most⟩ := best
        rw [hfold] at hbest
        obtain ⟨rfl, hmaximum⟩ := hbest
        have hle : weight last ≤ weight item := hweight _ _ hkey ▸ hmaximum.le hother
        simp only [keepBest, if_neg (Nat.not_lt.mpr hle)]
    · rw [List.foldl_append, List.foldl_cons, List.foldl_nil]

/-! ### The census -/

namespace Census

/-- Every slot has the first cell of its key, and counts the cells of this key. -/
structure Counts (census : Census C) (cells : List C) : Prop where
  firsts_eq : census.firsts.toList = firstCells cells
  counts_eq : census.counts.toList = census.firsts.toList.map (occurrences cells)

variable {census : Census C} {cells : List C}

theorem key_of_slot {key : Tracked.Key C} {slot : Nat} (h : census.slots[key]? = some slot) :
    ∃ first, census.firsts.toList[slot]? = some first ∧ Tracked.key first = key := by
  rw [Array.getElem?_toList]
  exact Option.map_eq_some_iff.mp ((census.slots_eq key slot).mp h)

/-- Keys without a slot have not been seen. -/
theorem not_mem_of_slot {key : Tracked.Key C} (h : census.slots[key]? = none) :
    key ∉ census.firsts.toList.map Tracked.key := by
  intro hmem
  obtain ⟨slot, hslot⟩ := List.mem_iff_getElem?.mp hmem
  rw [List.getElem?_map, Array.getElem?_toList] at hslot
  rw [(census.slots_eq key slot).mpr hslot] at h
  contradiction

/-- Another cell is counted in the slot of its key. -/
theorem Counts.add (h : census.Counts cells) (cell : C) :
    (census.add cell).Counts (cells ++ [cell]) := by
  unfold Census.add
  split
  · next slot hslot =>
    obtain ⟨first, hfirst, hkey⟩ := key_of_slot hslot
    have hseen : Tracked.key cell ∈ (firstCells cells).map Tracked.key :=
      h.firsts_eq ▸ hkey ▸ List.mem_map_of_mem (List.mem_of_getElem? hfirst)
    constructor
    case firsts_eq => rw [firstCells_append_singleton, if_pos hseen, ← h.firsts_eq]
    case counts_eq =>
      refine List.ext_getElem? fun other ↦ ?_
      rw [Array.toList_modify, List.getElem?_modify, h.counts_eq, List.getElem?_map,
        List.getElem?_map]
      cases hother : census.firsts.toList[other]? with
      | none => rfl
      | some found =>
        -- a key has one slot, so the key of `found` is that of `cell` in this slot only
        have hiff : slot = other ↔ Tracked.key cell = Tracked.key found := by
          have hslot' := census.slots_eq (Tracked.key cell) other
          rw [hslot, ← Array.getElem?_toList, hother] at hslot'
          simpa [eq_comm] using hslot'
        simp only [Option.map_some, Option.map_eq_map, occurrences_append_singleton, hiff]
        split <;> rfl
  · next hslot =>
    have hnew : Tracked.key cell ∉ (firstCells cells).map Tracked.key :=
      h.firsts_eq ▸ not_mem_of_slot hslot
    constructor
    case firsts_eq =>
      rw [firstCells_append_singleton, if_neg hnew, ← h.firsts_eq]
      exact Array.toList_push
    case counts_eq =>
      have hcell : occurrences cells cell = 0 :=
        List.count_eq_zero.mpr fun hmem ↦ hnew (mem_keys_firstCells.mpr hmem)
      have hother : ∀ other ∈ census.firsts.toList,
          occurrences (cells ++ [cell]) other = occurrences cells other := by
        intro other hmem
        have hne : Tracked.key cell ≠ Tracked.key other := fun hkey ↦
          not_mem_of_slot hslot (hkey ▸ List.mem_map_of_mem hmem)
        rw [occurrences_append_singleton, if_neg hne, Nat.add_zero]
      simp only [enter, Array.toList_push, List.map_append, List.map_cons, List.map_nil,
        occurrences_append_singleton, if_pos, hcell, h.counts_eq]
      rw [List.map_congr_left hother]

theorem counts_foldl (cells : List C) : (cells.foldl Census.add .empty).Counts cells := by
  induction cells using List.reverseRecOn with
  | nil => exact ⟨rfl, rfl⟩
  | append_singleton cells last ih =>
    rw [List.foldl_append]
    exact ih.add last

/-- The slot of the best item so far, and its count. -/
def SlotOf {α : Type} (items : List α) : Option (Nat × Nat) → Option (α × Nat) → Prop
  | some (slot, count), some (item, most) => items[slot]? = some item ∧ count = most
  | none, none => True
  | _, _ => False

/-- Going through the counts finds the slot that going through the items does. -/
theorem slotOf_foldl {α : Type} (weight : α → Nat) (items : List α) :
    SlotOf items ((items.map weight).zipIdx.foldl Census.keepBest none)
      (items.foldl (Columnar.keepBest weight) none) := by
  induction items using List.reverseRecOn with
  | nil => trivial
  | append_singleton items last ih =>
    rw [List.map_append, List.zipIdx_append, List.foldl_append, List.foldl_append]
    revert ih
    cases (items.map weight).zipIdx.foldl Census.keepBest none with
    | none =>
      cases items.foldl (Columnar.keepBest weight) none with
      | none =>
        intro _
        simp [SlotOf, Census.keepBest, Columnar.keepBest]
      | some best => exact False.elim
    | some slot =>
      cases items.foldl (Columnar.keepBest weight) none with
      | none => exact False.elim
      | some best =>
        obtain ⟨slot, count⟩ := slot
        obtain ⟨item, most⟩ := best
        rintro ⟨hitem, rfl⟩
        have hkept : (items ++ [last])[slot]? = some item :=
          List.getElem?_append_left (List.getElem?_eq_some_iff.mp hitem).1 ▸ hitem
        by_cases hle : weight last ≤ count
        · simp [SlotOf, Census.keepBest, Columnar.keepBest, hle, Nat.not_lt.mpr hle, hkept]
        · simp [SlotOf, Census.keepBest, Columnar.keepBest, hle, Nat.lt_of_not_le hle]

end Census

/-- The census finds what going through the cells with their numbers of occurrences does. -/
theorem dominant?_eq_foldl (cells : List C) :
    dominant? cells = cells.foldl (keepBest (occurrences cells)) none := by
  have hcounts := Census.counts_foldl cells
  have hslot := Census.slotOf_foldl (occurrences cells) (firstCells cells)
  rw [foldl_firstCells fun _ _ hkey ↦ by rw [occurrences, occurrences, hkey]] at hslot
  rw [← hcounts.firsts_eq, ← hcounts.counts_eq] at hslot
  unfold dominant?
  generalize cells.foldl Census.add .empty = census at hslot
  change Census.SlotOf census.firsts.toList census.best? _ at hslot
  cases hbest : census.best? with
  | none =>
    cases hitem : cells.foldl (keepBest (occurrences cells)) none with
    | none => simp [hbest]
    | some best => simp [hbest, hitem, Census.SlotOf] at hslot
  | some best =>
    obtain ⟨slot, count⟩ := best
    cases hitem : cells.foldl (keepBest (occurrences cells)) none with
    | none => simp [hbest, hitem, Census.SlotOf] at hslot
    | some best =>
      obtain ⟨item, most⟩ := best
      rw [hbest, hitem] at hslot
      obtain ⟨hfirst, rfl⟩ := hslot
      rw [Array.getElem?_toList] at hfirst
      simp [hbest, hfirst]

theorem bestOf_dominant? (cells : List C) :
    BestOf (occurrences cells) cells (dominant? cells) := by
  rw [dominant?_eq_foldl]
  exact @bestOf_foldl C (occurrences cells) [] none rfl cells

theorem dominant?_singleton (cell : C) : dominant? [cell] = some (cell, 1) := by
  have hcount : occurrences [cell] cell = 1 := by simp [occurrences]
  rw [dominant?_eq_foldl, List.foldl_cons, List.foldl_nil, keepBest, hcount]

/-- The dominant cell is the first of those that occur most often. -/
theorem dominant?_eq_some {cells : List C} {cell : C} {count : Nat}
    (h : dominant? cells = some (cell, count)) :
    count = occurrences cells cell ∧ FirstMaximum (occurrences cells) cells cell := by
  have hbest := bestOf_dominant? cells
  rw [h] at hbest
  exact hbest

theorem dominant?_eq_none {cells : List C} (h : dominant? cells = none) : cells = [] := by
  have hbest := bestOf_dominant? cells
  rw [h] at hbest
  exact hbest

theorem firstMaximum_keys {cells : List C} {cell : C}
    (h : FirstMaximum (occurrences cells) cells cell) :
    FirstMaximum (fun key ↦ (cells.map Tracked.key).count key) (cells.map Tracked.key)
      (Tracked.key cell) :=
  h.map fun _ _ ↦ rfl

theorem occurrences_congr {first second : List C} {cell other : C}
    (hkeys : first.map Tracked.key = second.map Tracked.key)
    (h : Tracked.key cell = Tracked.key other) :
    occurrences first cell = occurrences second other := by
  rw [occurrences, occurrences, hkeys, h]

/-- Sequences of the same keys have the same dominant key, as often. -/
theorem dominant?_congr {first second : List C}
    (hkeys : first.map Tracked.key = second.map Tracked.key) :
    (dominant? first).map (fun (cell, count) ↦ (Tracked.key cell, count)) =
      (dominant? second).map fun (cell, count) ↦ (Tracked.key cell, count) := by
  have hempty (cells : List C) : cells = [] ↔ cells.map Tracked.key = [] := by simp
  cases hfirst : dominant? first with
  | none =>
    have hnil : second = [] := by
      rw [hempty, ← hkeys, ← hempty]
      exact dominant?_eq_none hfirst
    rw [hnil]
    rfl
  | some best =>
    obtain ⟨cell, count⟩ := best
    obtain ⟨rfl, hmaximum⟩ := dominant?_eq_some hfirst
    cases hsecond : dominant? second with
    | none =>
      have hnil : first = [] := by
        rw [hempty, hkeys, ← hempty]
        exact dominant?_eq_none hsecond
      rw [hnil] at hmaximum
      exact absurd hmaximum.mem (by simp)
    | some best =>
      obtain ⟨other, count⟩ := best
      obtain ⟨rfl, hmaximum'⟩ := dominant?_eq_some hsecond
      have hkey : Tracked.key cell = Tracked.key other := by
        have hmapped := firstMaximum_keys hmaximum
        rw [hkeys] at hmapped
        exact hmapped.unique (firstMaximum_keys hmaximum')
      simp only [Option.map_some, hkey, occurrences_congr hkeys hkey]

end Columnar
