import Columnar.Layout.Sparse

/-!
# Sparse encoding

A sparse encoding picks some rows of a sequence, in increasing order, each with a cell. The rows
that deviate from a default are picked this way, and so are the rows of a view over sparse storage
that show anything but the default. `pickedFrom` is that one selection, and both encoders are cases
of it (`deviations_eq_pickedFrom`, `shownDeviations_eq_pickedFrom`). Spreading the picked cells out
over a default gives every row its picked cell, and the default to every other row
(`spread_pickedFrom`).
-/

set_option autoImplicit false
set_option relaxedAutoImplicit false

namespace Columnar

/-- The picked items with their rows, the first item being in row `row`. -/
def pickedFrom {α β : Type} (pick : α → Option β) (row : Nat) : List α → List (Nat × β)
  | [] => []
  | item :: rest =>
    match pick item with
    | some cell => (row, cell) :: pickedFrom pick (row + 1) rest
    | none => pickedFrom pick (row + 1) rest

section Picking

variable {α β : Type} {pick : α → Option β}

theorem filterMap_zipIdx_eq_pickedFrom (items : List α) (row : Nat) :
    ((items.zipIdx row).filterMap fun (item, place) ↦ (pick item).map (Prod.mk place)) =
      pickedFrom pick row items := by
  induction items generalizing row with
  | nil => rfl
  | cons item rest ih =>
    have hrest := ih (row + 1)
    unfold pickedFrom
    cases hpick : pick item with
    | none => simpa [hpick] using hrest
    | some cell => simpa [hpick] using hrest

theorem pickedFrom_append (first second : List α) (row : Nat) :
    pickedFrom pick row (first ++ second) =
      pickedFrom pick row first ++ pickedFrom pick (row + first.length) second := by
  induction first generalizing row with
  | nil => rfl
  | cons item rest ih =>
    have hrest : pickedFrom pick (row + 1) (rest ++ second) =
        pickedFrom pick (row + 1) rest ++ pickedFrom pick (row + (rest.length + 1)) second := by
      rw [ih, show row + 1 + rest.length = row + (rest.length + 1) by omega]
    simp only [List.cons_append, pickedFrom, List.length_cons]
    cases pick item with
    | none => exact hrest
    | some cell => exact congrArg (List.cons (row, cell)) hrest

theorem of_mem_pickedFrom {items : List α} {row : Nat} {entry : Nat × β}
    (h : entry ∈ pickedFrom pick row items) :
    row ≤ entry.1 ∧ entry.1 < row + items.length ∧ ∃ item ∈ items, pick item = some entry.2 := by
  induction items generalizing row with
  | nil => contradiction
  | cons item rest ih =>
    have hrest (hmem : entry ∈ pickedFrom pick (row + 1) rest) :
        row ≤ entry.1 ∧ entry.1 < row + (item :: rest).length ∧
          ∃ other ∈ item :: rest, pick other = some entry.2 := by
      obtain ⟨hlow, hhigh, other, hother, hpick⟩ := ih hmem
      rw [List.length_cons]
      exact ⟨by omega, by omega, other, List.mem_cons_of_mem _ hother, hpick⟩
    unfold pickedFrom at h
    cases hpick : pick item with
    | none =>
      rw [hpick] at h
      exact hrest h
    | some cell =>
      rw [hpick] at h
      rcases List.mem_cons.mp h with rfl | h
      · exact ⟨Nat.le_refl _, by simp, item, by simp, hpick⟩
      · exact hrest h

theorem length_pickedFrom (items : List α) (row : Nat) :
    (pickedFrom pick row items).length = items.countP fun item ↦ (pick item).isSome := by
  induction items generalizing row with
  | nil => rfl
  | cons item rest ih =>
    have hrest := ih (row + 1)
    unfold pickedFrom
    cases hpick : pick item with
    | none =>
      rw [List.countP_cons_of_neg (by simp [hpick])]
      exact hrest
    | some cell =>
      rw [List.countP_cons_of_pos (by simp [hpick])]
      exact congrArg (· + 1) hrest

theorem length_pickedFrom_le (items : List α) (row : Nat) :
    (pickedFrom pick row items).length ≤ items.length := by
  rw [length_pickedFrom]
  exact List.countP_le_length

/-- Rows are picked in increasing order. -/
theorem pairwise_pickedFrom (items : List α) (row : Nat) :
    (pickedFrom pick row items).Pairwise fun first second ↦ first.1 < second.1 := by
  induction items generalizing row with
  | nil => exact .nil
  | cons item rest ih =>
    unfold pickedFrom
    cases pick item with
    | none => exact ih (row + 1)
    | some cell =>
      refine List.pairwise_cons.mpr ⟨?_, ih (row + 1)⟩
      intro entry hentry
      exact (of_mem_pickedFrom hentry).1

theorem lookup_pickedFrom_of_lt (items : List α) {row position : Nat} (h : position < row) :
    (pickedFrom pick row items).lookup position = none := by
  rw [List.lookup_eq_none_iff]
  intro entry hentry
  have hlow := (of_mem_pickedFrom hentry).1
  have hne : position ≠ entry.1 := by omega
  simpa using hne

/-- A row finds the cell that was picked from it. -/
theorem lookup_pickedFrom (items : List α) (row place : Nat) :
    (pickedFrom pick row items).lookup (row + place) = items[place]?.bind pick := by
  induction items generalizing row place with
  | nil => simp [pickedFrom]
  | cons item rest ih =>
    cases place with
    | zero =>
      have hnone : (pickedFrom pick (row + 1) rest).lookup row = none :=
        lookup_pickedFrom_of_lt rest (Nat.lt_succ_self row)
      unfold pickedFrom
      cases hpick : pick item with
      | none => simpa [hpick] using hnone
      | some cell => simp [hpick]
    | succ place =>
      have hrest : (pickedFrom pick (row + 1) rest).lookup (row + (place + 1)) =
          rest[place]?.bind pick := by
        rw [show row + (place + 1) = row + 1 + place by omega]
        exact ih (row + 1) place
      unfold pickedFrom
      cases pick item with
      | none => simpa using hrest
      | some cell =>
        have hne : (row + (place + 1) == row) = false := by simp
        simpa [List.lookup_cons, hne] using hrest

/-- The rows of picked cells. -/
theorem mem_map_fst_pickedFrom_iff {items : List α} {row : Nat} :
    row ∈ (pickedFrom pick 0 items).map Prod.fst ↔
      ∃ item, items[row]? = some item ∧ pick item ≠ none := by
  have hlookup := @lookup_pickedFrom _ _ pick items 0 row
  rw [Nat.zero_add] at hlookup
  have hmem : row ∈ (pickedFrom pick 0 items).map Prod.fst ↔
      (pickedFrom pick 0 items).lookup row ≠ none := by
    rw [Ne, List.lookup_eq_none_iff]
    simp
  rw [hmem, hlookup, Option.ne_none_iff_isSome, Option.isSome_bind]
  cases items[row]? <;> simp [Option.isSome_iff_ne_none]

/-- Spreading the picked cells out over a default fills every row. -/
theorem spread_pickedFrom (default : β) (items : List α) (row : Nat) :
    spread default row items.length (pickedFrom pick row items) =
      items.map fun item ↦ (pick item).getD default := by
  induction items generalizing row with
  | nil => rfl
  | cons item rest ih =>
    have hrest := ih (row + 1)
    rw [List.length_cons, List.map_cons, ← hrest]
    cases hpick : pick item with
    | some cell => simp [pickedFrom, hpick, spread]
    | none =>
      simp only [pickedFrom, hpick, Option.getD_none]
      -- No picked row is `row`, so the default stands there.
      cases hpicked : pickedFrom pick (row + 1) rest with
      | nil => rfl
      | cons entry entries =>
        have hlow := (of_mem_pickedFrom (hpicked ▸ List.mem_cons_self)).1
        rw [spread, if_neg (by omega)]

theorem map_snd_pickedFrom (items : List α) (row : Nat) :
    (pickedFrom pick row items).map Prod.snd = items.filterMap pick := by
  induction items generalizing row with
  | nil => rfl
  | cons item rest ih =>
    have hrest := ih (row + 1)
    unfold pickedFrom
    rw [List.filterMap_cons]
    cases pick item with
    | none => exact hrest
    | some cell => exact congrArg (List.cons cell) hrest

/-- Relabelling what was picked. -/
theorem map_pickedFrom {γ : Type} (f : β → γ) (items : List α) (row : Nat) :
    (pickedFrom pick row items).map (fun (place, cell) ↦ (place, f cell)) =
      pickedFrom (fun item ↦ (pick item).map f) row items := by
  induction items generalizing row with
  | nil => rfl
  | cons item rest ih =>
    have hrest := ih (row + 1)
    unfold pickedFrom
    cases pick item with
    | none => exact hrest
    | some cell => exact congrArg (List.cons (row, f cell)) hrest

/-- Picking by a label of the items is picking from the labels. -/
theorem pickedFrom_map {γ : Type} (f : γ → α) (items : List γ) (row : Nat) :
    pickedFrom pick row (items.map f) = pickedFrom (fun item ↦ pick (f item)) row items := by
  induction items generalizing row with
  | nil => rfl
  | cons item rest ih =>
    have hrest := ih (row + 1)
    rw [List.map_cons]
    unfold pickedFrom
    cases pick (f item) with
    | none => exact hrest
    | some cell => exact congrArg (List.cons (row, cell)) hrest

/-- Picking by the rows of items gives the rows picked, in order. -/
theorem pickedFrom_eq_map_filter (picked : Nat → Bool) (cell : Nat → β)
    {items : List α} {row : Nat}
    (h : ∀ place item, items[place]? = some item →
      pick item = if picked (row + place) then some (cell (row + place)) else none) :
    pickedFrom pick row items =
      ((List.range' row items.length).filter picked).map fun place ↦ (place, cell place) := by
  induction items generalizing row with
  | nil => rfl
  | cons item rest ih =>
    have hitem := h 0 item rfl
    have hrest := @ih (row + 1) fun place other hother ↦ by
      rw [Nat.succ_add_eq_add_succ]
      exact h (place + 1) other hother
    rw [Nat.add_zero] at hitem
    rw [List.length_cons, List.range'_succ, pickedFrom, hitem]
    by_cases hpicked : picked row
    · rw [if_pos hpicked, List.filter_cons_of_pos hpicked, List.map_cons, hrest]
    · rw [if_neg hpicked, List.filter_cons_of_neg hpicked, hrest]

end Picking

/-! ### The two encoders -/

section Encoders

variable {S C : Type}

theorem deviations_eq_pickedFrom (isDefault : C → Bool) (cells : List C) :
    deviations isDefault cells =
      pickedFrom (fun cell ↦ if isDefault cell then none else some cell) 0 cells := by
  rw [← filterMap_zipIdx_eq_pickedFrom]
  unfold deviations
  congr 1
  funext ⟨cell, row⟩
  cases hcell : isDefault cell <;> simp [hcell]

/-- A cell of a view that deviates from the default of the sparse store. -/
def SparseStore.pick [Cell C] [Store S C] (sparse : SparseStore S C) (entry : Int) : Option C :=
  match sparse.shown? entry with
  | some cell => if Cell.same cell sparse.default then none else some cell
  | none => none

theorem shownDeviations_eq_pickedFrom [Cell C] [Store S C] (sparse : SparseStore S C)
    (mapping : Mapping) :
    sparse.shownDeviations mapping = pickedFrom sparse.pick 0 mapping.toList := by
  rw [← filterMap_zipIdx_eq_pickedFrom]
  unfold SparseStore.shownDeviations SparseStore.pick
  congr 1
  funext ⟨entry, row⟩
  cases hshown : sparse.shown? entry with
  | none => simp [hshown]
  | some cell => cases hsame : Cell.same cell sparse.default <;> simp [hshown, hsame]

/-- One more cell leaves the deviations before it alone. -/
theorem deviations_append_singleton (isDefault : C → Bool) (cells : List C) (cell : C) :
    deviations isDefault (cells ++ [cell]) =
      deviations isDefault cells ++ if isDefault cell then [] else [(cells.length, cell)] := by
  rw [deviations_eq_pickedFrom, deviations_eq_pickedFrom, pickedFrom_append, Nat.zero_add]
  congr 1
  cases hcell : isDefault cell <;> simp [pickedFrom, hcell]

/-- Decoding gives every deviation back, and the default for the rest. -/
theorem spread_deviations (isDefault : C → Bool) (default : C) (cells : List C) :
    spread default 0 cells.length (deviations isDefault cells) =
      cells.map fun cell ↦ if isDefault cell then default else cell := by
  rw [deviations_eq_pickedFrom, spread_pickedFrom]
  apply List.map_congr_left
  intro cell _
  cases isDefault cell <;> rfl

end Encoders

end Columnar
