import Columnar.Layout.Basic
import Columnar.Proofs.Sparse.Reading

/-!
# Filling buffers from layouts

A fill puts row `start + k` in place `offset + k * step` of the buffer, for every `k` below the
number of rows that it writes. A sparse layout first writes its default everywhere and then its
exceptions over it; as its positions are all different, each place ends with what a read of its row
gives. So all three layouts fill alike (`getElem?_fill`), leave all other places as they were
(`getElem?_fill_of_ne`), and the array of all cells lists the layout row by row (`toList_toArray`).
-/

set_option autoImplicit false
set_option relaxedAutoImplicit false

namespace Columnar

/-! ### Writing every `step`-th place -/

section Strides

variable {T : Type} {buffer : Array T} {offset step : Nat}

theorem stride_injective (hstep : 0 < step) {first second : Nat}
    (h : offset + first * step = offset + second * step) : first = second :=
  Nat.eq_of_mul_eq_mul_right hstep (Nat.add_left_cancel h)

theorem size_writeAll (value : Nat → T) (count : Nat) :
    ((List.range count).foldl
      (fun filled k ↦ filled.setIfInBounds (offset + k * step) (value k)) buffer).size =
        buffer.size := by
  induction count with
  | zero => rfl
  | succ count ih => simpa [List.range_succ] using ih

/-- Every place written inside the buffer holds its value. -/
theorem getElem?_writeAll (value : Nat → T) {count k : Nat} (hstep : 0 < step) (hk : k < count)
    (hinside : offset + k * step < buffer.size) :
    ((List.range count).foldl
      (fun filled k ↦ filled.setIfInBounds (offset + k * step) (value k)) buffer)[
        offset + k * step]? = some (value k) := by
  induction count with
  | zero => contradiction
  | succ count ih =>
    rw [List.range_succ, List.foldl_append, List.foldl_cons, List.foldl_nil,
      Array.getElem?_setIfInBounds]
    rcases Nat.lt_or_eq_of_le (Nat.le_of_lt_succ hk) with hlt | rfl
    · have hne : offset + count * step ≠ offset + k * step := fun h ↦
        Nat.ne_of_gt hlt (stride_injective hstep h)
      rw [if_neg hne]
      exact ih hlt
    · rw [if_pos rfl, if_pos (by rwa [size_writeAll])]

/-- Places between and around the written ones keep what they held. -/
theorem getElem?_writeAll_of_ne (value : Nat → T) {count place : Nat}
    (hplace : ∀ k < count, place ≠ offset + k * step) :
    ((List.range count).foldl
      (fun filled k ↦ filled.setIfInBounds (offset + k * step) (value k)) buffer)[place]? =
        buffer[place]? := by
  induction count with
  | zero => rfl
  | succ count ih =>
    rw [List.range_succ, List.foldl_append, List.foldl_cons, List.foldl_nil,
      Array.getElem?_setIfInBounds, if_neg (hplace count (Nat.lt_succ_self count)).symm]
    exact ih fun k hk ↦ hplace k (Nat.lt_succ_of_lt hk)

end Strides

/-! ### Writing the exceptions of a sparse store -/

section Entries

variable {C T : Type} {offset step start count : Nat} {convert : C → T}

/-- Puts an entry in the place of its row, if its row is among those to write. -/
def writeEntry (offset step start count : Nat) (convert : C → T) (filled : Array T)
    (entry : Nat × C) : Array T :=
  if start ≤ entry.1 && entry.1 < start + count then
    filled.setIfInBounds (offset + (entry.1 - start) * step) (convert entry.2)
  else filled

theorem size_writeEntry (filled : Array T) (entry : Nat × C) :
    (writeEntry offset step start count convert filled entry).size = filled.size := by
  unfold writeEntry
  split
  · exact Array.size_setIfInBounds
  · rfl

theorem size_foldl_writeEntry (filled : Array T) (entries : List (Nat × C)) :
    (entries.foldl (writeEntry offset step start count convert) filled).size = filled.size := by
  induction entries generalizing filled with
  | nil => rfl
  | cons entry rest ih => rw [List.foldl_cons, ih, size_writeEntry]

/-- The place of an entry's row holds its cell, and every other place what it held. -/
theorem getElem?_writeEntry (hstep : 0 < step) {k : Nat} (hk : k < count) {filled : Array T}
    (hinside : offset + k * step < filled.size) (entry : Nat × C) :
    (writeEntry offset step start count convert filled entry)[offset + k * step]? =
      if start + k = entry.1 then some (convert entry.2) else filled[offset + k * step]? := by
  unfold writeEntry
  by_cases hrow : start + k = entry.1
  · have hwritten : (start ≤ entry.1 && entry.1 < start + count) = true := by
      simp only [Bool.and_eq_true, decide_eq_true_eq]
      omega
    have hplace : entry.1 - start = k := by omega
    rw [if_pos hrow, if_pos hwritten, hplace, Array.getElem?_setIfInBounds, if_pos rfl,
      if_pos hinside]
  · rw [if_neg hrow]
    split
    · next hwritten =>
      simp only [Bool.and_eq_true, decide_eq_true_eq] at hwritten
      have hne : offset + (entry.1 - start) * step ≠ offset + k * step := by
        intro h
        have hplace := stride_injective hstep h
        omega
      rw [Array.getElem?_setIfInBounds, if_neg hne]
    · rfl

/-- An entry is written to none but the places of the rows to write. -/
theorem getElem?_foldl_writeEntry_of_ne {place : Nat}
    (hplace : ∀ k < count, place ≠ offset + k * step) (filled : Array T)
    (entries : List (Nat × C)) :
    (entries.foldl (writeEntry offset step start count convert) filled)[place]? =
      filled[place]? := by
  induction entries generalizing filled with
  | nil => rfl
  | cons entry rest ih =>
    rw [List.foldl_cons, ih, writeEntry]
    split
    · next hwritten =>
      simp only [Bool.and_eq_true, decide_eq_true_eq] at hwritten
      rw [Array.getElem?_setIfInBounds, if_neg (hplace (entry.1 - start) (by omega)).symm]
    · rfl

/-- After all entries, a place holds the cell listed for its row, if there is one. -/
theorem getElem?_foldl_writeEntry (hstep : 0 < step) {k : Nat} (hk : k < count) {filled : Array T}
    (hinside : offset + k * step < filled.size) {entries : List (Nat × C)}
    (hsorted : entries.Pairwise fun first second ↦ first.1 < second.1) :
    (entries.foldl (writeEntry offset step start count convert) filled)[offset + k * step]? =
      match entries.lookup (start + k) with
      | some cell => some (convert cell)
      | none => filled[offset + k * step]? := by
  induction entries generalizing filled with
  | nil => rfl
  | cons entry rest ih =>
    obtain ⟨position, cell⟩ := entry
    obtain ⟨hfirst, hrest⟩ := List.pairwise_cons.mp hsorted
    rw [List.foldl_cons, ih (by rwa [size_writeEntry]) hrest, List.lookup_cons]
    by_cases hrow : start + k = position
    · -- No later entry has this row.
      have hnone : rest.lookup (start + k) = none := by
        rw [List.lookup_eq_none_iff]
        intro other hother
        have hlt := hfirst other hother
        simp only [bne_iff_ne, ne_eq]
        omega
      rw [hnone, getElem?_writeEntry hstep hk hinside, if_pos hrow]
      simp [hrow]
    · rw [getElem?_writeEntry hstep hk hinside, if_neg hrow]
      have hbeq : (start + k == position) = false := by simpa using hrow
      rw [hbeq]

end Entries

/-! ### Fills -/

namespace Layout

variable {S C T : Type} [Cell C] [Store S C]

/-- The positions of a sparse layout are in order and match its exceptions. -/
def Formed : Layout S C → Prop
  | sparse source => source.WellFormed
  | _ => True

/-- All cells, read row by row. -/
def rows (layout : Layout S C) : List C := (List.range layout.size).map layout.read

theorem length_rows (layout : Layout S C) : layout.rows.length = layout.size := by
  simp [rows]

theorem mem_rows_iff {layout : Layout S C} {cell : C} :
    cell ∈ layout.rows ↔ ∃ row < layout.size, layout.read row = cell := by
  simp [rows]

theorem getElem?_rows (layout : Layout S C) (row : Nat) : layout.rows[row]? = layout.get? row := by
  unfold rows get?
  split
  · next hrow => rw [List.getElem?_map, List.getElem?_range hrow, Option.map_some]
  · next hrow => exact List.getElem?_eq_none (by simpa using hrow)

/-- The rows that a fill writes are rows of the layout, and their places are in the buffer. -/
theorem lt_fillCount_iff {size start bufferSize offset step k : Nat} (hstep : 0 < step) :
    k < fillCount size start bufferSize offset step ↔
      start + k < size ∧ offset + k * step < bufferSize := by
  unfold fillCount
  by_cases hstart : size ≤ start
  · simp only [hstart, decide_true, Bool.true_or, if_true]
    omega
  · by_cases hoffset : bufferSize ≤ offset
    · simp only [hoffset, decide_true, Bool.or_true, if_true]
      have hle := Nat.le_add_right offset (k * step)
      omega
    · have hmul : k ≤ (bufferSize - offset - 1) / step ↔ k * step ≤ bufferSize - offset - 1 :=
        Nat.le_div_iff_mul_le hstep
      simp only [hstart, hoffset, decide_false, Bool.or_self, Bool.false_eq_true, if_false,
        Nat.lt_min, Nat.lt_succ_iff, hmul]
      omega

variable {layout : Layout S C} {buffer : Array T} {start offset step : Nat} {convert : C → T}

theorem fill_sparse (source : SparseStore S C) :
    (sparse source).fill buffer start offset step convert =
      source.entries.foldl
        (writeEntry offset step start
          (fillCount source.size start buffer.size offset step) convert)
        ((List.range (fillCount source.size start buffer.size offset step)).foldl
          (fun filled k ↦ filled.setIfInBounds (offset + k * step) (convert source.default))
          buffer) := rfl

theorem size_fill : (layout.fill buffer start offset step convert).size = buffer.size := by
  cases layout with
  | dense store => exact size_writeAll _ _
  | mapped store mapping => exact size_writeAll _ _
  | sparse source => rw [fill_sparse, size_foldl_writeEntry, size_writeAll]

/-- Every row that a fill writes is read into its place, whatever the layout. -/
theorem getElem?_fill (hformed : layout.Formed) (hstep : 0 < step) {k : Nat}
    (hk : k < fillCount layout.size start buffer.size offset step) :
    (layout.fill buffer start offset step convert)[offset + k * step]? =
      some (convert (layout.read (start + k))) := by
  have hinside := ((lt_fillCount_iff hstep).mp hk).2
  cases layout with
  | dense store => exact getElem?_writeAll _ hstep hk hinside
  | mapped store mapping => exact getElem?_writeAll _ hstep hk hinside
  | sparse source =>
    change k < fillCount source.size start buffer.size offset step at hk
    have hsorted := SparseStore.pairwise_entries hformed.increasing
    rw [fill_sparse, getElem?_foldl_writeEntry hstep hk (by rwa [size_writeAll]) hsorted,
      getElem?_writeAll _ hstep hk hinside]
    show _ = some (convert (source.read (start + k)))
    rw [SparseStore.read_eq_lookup hformed.increasing]
    cases source.entries.lookup (start + k) <;> rfl

/-- A fill leaves every other place as it was, whatever the layout. -/
theorem getElem?_fill_of_ne {place : Nat}
    (hplace : ∀ k < fillCount layout.size start buffer.size offset step,
      place ≠ offset + k * step) :
    (layout.fill buffer start offset step convert)[place]? = buffer[place]? := by
  cases layout with
  | dense store => exact getElem?_writeAll_of_ne _ hplace
  | mapped store mapping => exact getElem?_writeAll_of_ne _ hplace
  | sparse source =>
    exact (getElem?_foldl_writeEntry_of_ne hplace _ _).trans (getElem?_writeAll_of_ne _ hplace)

/-- The array of all cells lists the rows. -/
theorem toList_toArray (hformed : layout.Formed) : layout.toArray.toList = layout.rows := by
  refine List.ext_getElem? fun row ↦ ?_
  have hsize : layout.toArray.size = layout.size := by simp [toArray, size_fill]
  rw [Array.getElem?_toList, getElem?_rows, get?]
  split
  · next hrow =>
    have hk : row < fillCount layout.size 0 (Array.replicate layout.size (Cell.missing : C)).size
        0 1 := by
      rw [lt_fillCount_iff (Nat.lt_succ_self 0)]
      simpa using hrow
    have hfill : layout.toArray[0 + row * 1]? = some (layout.read (0 + row)) :=
      getElem?_fill hformed (Nat.lt_succ_self 0) hk
    rwa [Nat.zero_add, Nat.mul_one, Nat.zero_add] at hfill
  · next hrow => exact Array.getElem?_eq_none (hsize ▸ Nat.not_lt.mp hrow)

end Layout

end Columnar
