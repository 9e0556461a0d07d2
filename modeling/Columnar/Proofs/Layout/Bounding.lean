import Columnar.Proofs.Layout.Materializing

/-!
# Filling within bounds

A fill never leaves its buffer or its store. `fill?` goes through a fill write by write and gives no
result if one read or write is out of bounds; it always gives the result of the fill
(`fill?_eq_some`). In a sparse layout it starts from the first exception that is not before the rows
to write, which a search finds, and stops at the first one past them. Since the positions increase,
these are all the exceptions among the rows.
-/

set_option autoImplicit false
set_option relaxedAutoImplicit false

namespace Columnar

/-! ### Writing within bounds -/

section Writes

variable {T : Type} {buffer : Array T} {offset step : Nat}

/-- Steps that all succeed where an invariant holds, and keep it, succeed together. -/
theorem foldlM_eq_some {α β : Type} {step? : β → α → Option β} {step : β → α → β}
    (invariant : β → Prop) {items : List α}
    (h : ∀ state item, invariant state → item ∈ items →
      step? state item = some (step state item) ∧ invariant (step state item))
    {state : β} (hstate : invariant state) :
    items.foldlM step? state = some (items.foldl step state) := by
  induction items generalizing state with
  | nil => rfl
  | cons item rest ih =>
    obtain ⟨hstep, hnext⟩ := h state item hstate List.mem_cons_self
    rw [List.foldlM_cons, hstep]
    exact ih (fun state other hstate hother ↦ h state other hstate (List.mem_cons_of_mem _ hother))
      hnext

/-- Writes to a place of the buffer, if there is such a place. -/
def writeAt? (filled : Array T) (place : Nat) (value : T) : Option (Array T) :=
  if place < filled.size then some (filled.setIfInBounds place value) else none

/-- Writes `count` values, each to its place, if there are such values and places. -/
def writeAll? (buffer : Array T) (offset step count : Nat) (value? : Nat → Option T) :
    Option (Array T) :=
  (List.range count).foldlM
    (fun filled k ↦ (value? k).bind (writeAt? filled (offset + k * step))) buffer

theorem writeAll?_eq_some {count : Nat} {value? : Nat → Option T} {value : Nat → T}
    (h : ∀ k < count, offset + k * step < buffer.size ∧ value? k = some (value k)) :
    writeAll? buffer offset step count value? =
      some ((List.range count).foldl
        (fun filled k ↦ filled.setIfInBounds (offset + k * step) (value k)) buffer) := by
  refine foldlM_eq_some (fun filled : Array T ↦ filled.size = buffer.size) ?_ rfl
  intro filled k hsize hk
  obtain ⟨hplace, hvalue⟩ := h k (List.mem_range.mp hk)
  rw [hvalue, Option.bind_some, writeAt?, if_pos (hsize ▸ hplace)]
  exact ⟨rfl, Array.size_setIfInBounds.trans hsize⟩

end Writes

/-! ### The exceptions among some rows -/

section Entries

variable {C T : Type} {offset step start count : Nat} {convert : C → T}

/-- Entries of other rows are not written. -/
theorem foldl_writeEntry_of_outside {entries : List (Nat × C)}
    (h : ∀ entry ∈ entries, entry.1 < start ∨ start + count ≤ entry.1) (filled : Array T) :
    entries.foldl (writeEntry offset step start count convert) filled = filled := by
  induction entries generalizing filled with
  | nil => rfl
  | cons entry rest ih =>
    have hentry := h entry List.mem_cons_self
    have hskipped : (start ≤ entry.1 && entry.1 < start + count) = false := by
      simp only [Bool.and_eq_false_iff, decide_eq_false_iff_not]
      omega
    rw [List.foldl_cons, writeEntry, hskipped]
    exact ih (fun other hother ↦ h other (List.mem_cons_of_mem _ hother)) filled

/-- Past the first entry that is not below a bound, none is. -/
theorem le_of_mem_dropWhile {entries : List (Nat × C)} {bound : Nat}
    (hsorted : entries.Pairwise fun first second ↦ first.1 < second.1) {entry : Nat × C}
    (h : entry ∈ entries.dropWhile fun entry ↦ entry.1 < bound) : bound ≤ entry.1 := by
  induction entries with
  | nil => contradiction
  | cons head rest ih =>
    obtain ⟨hhead, hrest⟩ := List.pairwise_cons.mp hsorted
    by_cases hbelow : head.1 < bound
    · rw [List.dropWhile_cons_of_pos (by simpa using hbelow)] at h
      exact ih hrest h
    · rw [List.dropWhile_cons_of_neg (by simpa using hbelow)] at h
      rcases List.mem_cons.mp h with rfl | hmem
      · exact Nat.not_lt.mp hbelow
      · exact Nat.le_of_lt (Nat.lt_of_le_of_lt (Nat.not_lt.mp hbelow) (hhead entry hmem))

end Entries

namespace SparseStore

variable {S C T : Type} [Cell C] [Store S C] {source : SparseStore S C} {start count : Nat}

/-- The exceptions among `count` rows from `start` on, as places and their rows: they begin where a
search for `start` ends. -/
def exceptionsWithin (source : SparseStore S C) (start count : Nat) : List (Nat × Nat) :=
  (source.positions.toList.zipIdx.drop (lowerBound source.positions start)).takeWhile
    fun (row, _) ↦ row < start + count

/-- What is left of the positions after the search has its row from `start` on. -/
theorem le_of_mem_drop (hformed : source.WellFormed) {row place : Nat}
    (h : (row, place) ∈
      source.positions.toList.zipIdx.drop (lowerBound source.positions start)) :
    start ≤ row ∧ place < Store.size source.exceptions := by
  obtain ⟨index, hindex⟩ := List.mem_iff_getElem?.mp h
  rw [List.getElem?_drop, List.getElem?_zipIdx, Array.getElem?_toList] at hindex
  obtain ⟨position, hposition, heq⟩ := Option.map_eq_some_iff.mp hindex
  cases heq
  obtain ⟨hlt, hrow⟩ := Array.getElem?_eq_some_iff.mp hposition
  have habove := (brackets_lowerBound hformed.increasing start).above _ hlt (Nat.le_add_right _ _)
  rw [hrow] at habove
  rw [Nat.zero_add]
  exact ⟨habove, hformed.exceptions ▸ hlt⟩

/-- What the search passes over has its row before `start`. -/
theorem lt_of_mem_take (hformed : source.WellFormed) {row place : Nat}
    (h : (row, place) ∈
      source.positions.toList.zipIdx.take (lowerBound source.positions start)) : row < start := by
  obtain ⟨index, hindex⟩ := List.mem_iff_getElem?.mp h
  rw [List.getElem?_take, Option.ite_none_right_eq_some] at hindex
  obtain ⟨hpassed, hindex⟩ := hindex
  rw [List.getElem?_zipIdx, Array.getElem?_toList] at hindex
  obtain ⟨position, hposition, heq⟩ := Option.map_eq_some_iff.mp hindex
  cases heq
  obtain ⟨hlt, hrow⟩ := Array.getElem?_eq_some_iff.mp hposition
  have hbelow := (brackets_lowerBound hformed.increasing start).below _ hlt hpassed
  rwa [hrow] at hbelow

/-- These are exceptions of the store, of rows in the range. -/
theorem of_mem_exceptionsWithin (hformed : source.WellFormed) {row place : Nat}
    (h : (row, place) ∈ source.exceptionsWithin start count) :
    start ≤ row ∧ row < start + count ∧ place < Store.size source.exceptions := by
  have hbelow := List.all_eq_true.mp List.all_takeWhile _ h
  obtain ⟨habove, hplace⟩ := le_of_mem_drop hformed ((List.takeWhile_sublist _).subset h)
  exact ⟨habove, by simpa using hbelow, hplace⟩

/-- Writing all entries writes only these exceptions. -/
theorem foldl_writeEntry_entries (hformed : source.WellFormed) {offset step : Nat}
    {convert : C → T} (filled : Array T) :
    source.entries.foldl (writeEntry offset step start count convert) filled =
      (source.exceptionsWithin start count).foldl (fun filled (row, place) ↦
        writeEntry offset step start count convert filled
          (row, Store.read source.exceptions place)) filled := by
  let entry (listed : Nat × Nat) : Nat × C := (listed.1, Store.read source.exceptions listed.2)
  let listed := source.positions.toList.zipIdx
  let first := lowerBound source.positions start
  have hentries : source.entries = listed.map entry := rfl
  have hsplit : source.entries = (listed.take first).map entry ++
      ((source.exceptionsWithin start count).map entry ++
        ((listed.drop first).map entry).dropWhile fun other ↦ other.1 < start + count) := by
    have hwithin : (source.exceptionsWithin start count).map entry =
        ((listed.drop first).map entry).takeWhile fun other ↦ other.1 < start + count := by
      rw [List.takeWhile_map]
      rfl
    rw [hwithin, List.takeWhile_append_dropWhile, ← List.map_append, List.take_append_drop,
      hentries]
  have hbefore : ∀ other ∈ (listed.take first).map entry,
      other.1 < start ∨ start + count ≤ other.1 := by
    intro other hother
    obtain ⟨⟨row, place⟩, hmem, rfl⟩ := List.mem_map.mp hother
    exact .inl (lt_of_mem_take hformed hmem)
  have hafter : ∀ other ∈ ((listed.drop first).map entry).dropWhile
      fun other ↦ other.1 < start + count, other.1 < start ∨ start + count ≤ other.1 := by
    intro other hother
    have hsorted := pairwise_entries (S := S) hformed.increasing
    rw [hentries] at hsorted
    have hdropped := hsorted.sublist ((List.drop_sublist first listed).map entry)
    exact .inr (le_of_mem_dropWhile hdropped hother)
  rw [hsplit, List.foldl_append, List.foldl_append, foldl_writeEntry_of_outside hbefore,
    foldl_writeEntry_of_outside hafter, List.foldl_map]

end SparseStore

/-! ### Filling -/

namespace Layout

variable {S C T : Type} [Cell C] [Store S C]

/-- As `fill`, with every read and write checked, and only the exceptions among the rows visited. -/
def fill? (layout : Layout S C) (buffer : Array T) (start offset step : Nat) (convert : C → T) :
    Option (Array T) :=
  let count := fillCount layout.size start buffer.size offset step
  match layout with
  | dense _ | mapped _ _ =>
    writeAll? buffer offset step count fun k ↦ (layout.read? (start + k)).map convert
  | sparse source => do
    let filled ← writeAll? buffer offset step count fun _ ↦ some (convert source.default)
    (source.exceptionsWithin start count).foldlM (fun filled (row, place) ↦
      (Store.get? source.exceptions place).bind fun cell ↦
        writeAt? filled (offset + (row - start) * step) (convert cell)) filled

/-- A fill stays within the layout and the buffer. -/
theorem fill?_eq_some {layout : Layout S C} (hformed : layout.Formed) {buffer : Array T}
    {start offset step : Nat} {convert : C → T} (hstep : 0 < step) :
    layout.fill? buffer start offset step convert =
      some (layout.fill buffer start offset step convert) := by
  have hrows {k : Nat}
      (hk : k < fillCount layout.size start buffer.size offset step) :
      offset + k * step < buffer.size ∧
        (layout.read? (start + k)).map convert = some (convert (layout.read (start + k))) := by
    obtain ⟨hrow, hplace⟩ := (lt_fillCount_iff hstep).mp hk
    exact ⟨hplace, by rw [read?_eq_some hformed hrow, Option.map_some]⟩
  cases layout with
  | dense store => exact writeAll?_eq_some fun k hk ↦ hrows hk
  | mapped store mapping => exact writeAll?_eq_some fun k hk ↦ hrows hk
  | sparse source =>
    have hdefaults := @writeAll?_eq_some T buffer offset step _
      (fun _ ↦ some (convert source.default)) (fun _ ↦ convert source.default)
      fun k hk ↦ ⟨(@hrows k hk).1, rfl⟩
    rw [fill_sparse, SparseStore.foldl_writeEntry_entries hformed]
    unfold fill?
    dsimp only
    rw [hdefaults]
    refine foldlM_eq_some (fun filled : Array T ↦ filled.size = buffer.size) ?_ (size_writeAll _ _)
    rintro filled ⟨row, place⟩ hsize hmem
    obtain ⟨habove, hbelow, hexception⟩ := SparseStore.of_mem_exceptionsWithin hformed hmem
    obtain ⟨k, rfl⟩ := Nat.exists_eq_add_of_le habove
    have hk : k < fillCount source.size start buffer.size offset step :=
      Nat.add_lt_add_iff_left.mp hbelow
    have hwritten : (start ≤ start + k && start + k < start +
        fillCount source.size start buffer.size offset step) = true := by
      simpa using hk
    rw [Store.get?_of_lt hexception, Option.bind_some, writeAt?, writeEntry, if_pos hwritten,
      Nat.add_sub_cancel_left, if_pos (hsize ▸ (hrows hk).1)]
    exact ⟨rfl, Array.size_setIfInBounds.trans hsize⟩

end Layout

end Columnar
