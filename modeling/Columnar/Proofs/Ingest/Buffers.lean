import Columnar.Ingest.Tracked
import Columnar.Proofs.Index.Storing

/-!
# Buffers of cells under accumulation

A buffer takes the cells that it accepts one after the other, and its contents are these cells in
order (`contents_appendAll`). Whether a cell is accepted depends on its key alone, so a cell that
comes back from sparse storage is accepted again. A cell that one buffer refuses is refused by all
(`Stores`), so whether a buffer can be made of cells depends on them and on the room for them
(`Stores.bufferOf_cases`). The widening buffer of category indices ends in a format no wider than
its indices need (`bits_appendAll_le`).
-/

set_option autoImplicit false
set_option relaxedAutoImplicit false

namespace Columnar

namespace Tracked

variable {C : Type} [Tracked C]

/-- Every buffer takes the cell. -/
def Accepts (cell : C) : Prop :=
  ∀ buffer : Buffer C, append buffer cell = .done () (append buffer cell).state

/-- The buffer after these cells. -/
def appendAll (buffer : Buffer C) (cells : List C) : Buffer C :=
  cells.foldl (fun buffer cell ↦ (append buffer cell).state) buffer

theorem appendAll_append (buffer : Buffer C) (first second : List C) :
    appendAll buffer (first ++ second) = appendAll (appendAll buffer first) second :=
  List.foldl_append

/-- Whatever is in a buffer, room can be made for so many cells. -/
def HasRoom (C : Type) [Tracked C] (count : Nat) : Prop :=
  ∀ buffer : Buffer C, count ≤ sizeLimit buffer

end Tracked

/-- What accumulators rely on. -/
class LawfulTracked (C : Type) [Tracked C] : Prop where
  contents_empty : Tracked.contents (Tracked.emptyBuffer : Tracked.Buffer C) = []
  contents_append {buffer next : Tracked.Buffer C} {cell : C}
    (h : Tracked.append buffer cell = .done () next) :
    Tracked.contents next = Tracked.contents buffer ++ [cell]
  accepts_of_key_eq {first second : C} (h : Tracked.key first = Tracked.key second) :
    Tracked.Accepts first → Tracked.Accepts second
  hasRoom : Tracked.HasRoom C rowLimit

namespace Tracked

section Laws

variable {C : Type} [Tracked C] [LawfulTracked C]

theorem contents_appendAll_from (buffer : Buffer C) {cells : List C}
    (h : ∀ cell ∈ cells, Accepts cell) :
    contents (appendAll buffer cells) = contents buffer ++ cells := by
  induction cells generalizing buffer with
  | nil => simp [appendAll]
  | cons cell rest ih =>
    have haccepts := h cell List.mem_cons_self buffer
    have hrest := ih (append buffer cell).state fun other hother ↦
      h other (List.mem_cons_of_mem _ hother)
    rw [LawfulTracked.contents_append haccepts, List.append_assoc, List.singleton_append] at hrest
    exact hrest

theorem contents_appendAll {cells : List C} (h : ∀ cell ∈ cells, Accepts cell) :
    contents (appendAll emptyBuffer cells) = cells := by
  rw [contents_appendAll_from emptyBuffer h, LawfulTracked.contents_empty, List.nil_append]

omit [LawfulTracked C] in
/-- Making a buffer is making room and then appending the cells. -/
theorem bufferOf_eq_bind (capacity : Nat) (cells : List C) :
    bufferOf capacity cells =
      Word.requireRoom capacity (sizeLimit (emptyBuffer : Buffer C)) >>= fun _ ↦
        cells.foldlM (fun buffer cell ↦ (append buffer cell).reached) emptyBuffer := by
  unfold bufferOf withCapacity
  cases Word.requireRoom capacity (sizeLimit (emptyBuffer : Buffer C)) with
  | error fault => rfl
  | ok _ => exact Attempt.reached_runAll append (fun _ _ ↦ ()) emptyBuffer cells

omit [LawfulTracked C] in
theorem foldlM_append_of_accepts (buffer : Buffer C) {cells : List C}
    (h : ∀ cell ∈ cells, Accepts cell) :
    cells.foldlM (fun buffer cell ↦ (append buffer cell).reached) buffer =
      .ok (appendAll buffer cells) := by
  induction cells generalizing buffer with
  | nil => rfl
  | cons cell rest ih =>
    have hcell : (append buffer cell).reached = .ok (append buffer cell).state := by
      rw [h cell List.mem_cons_self buffer]
      rfl
    rw [List.foldlM_cons, hcell]
    exact ih _ fun other hother ↦ h other (List.mem_cons_of_mem _ hother)

omit [LawfulTracked C] in
/-- A buffer of accepted cells can be made with any room that there is. -/
theorem bufferOf_eq {capacity : Nat} {cells : List C} (hroom : HasRoom C capacity)
    (h : ∀ cell ∈ cells, Accepts cell) :
    bufferOf capacity cells = .ok (appendAll emptyBuffer cells) := by
  rw [bufferOf_eq_bind, Word.requireRoom_eq_ok_iff.mpr (hroom emptyBuffer), Outcome.ok_bind,
    foldlM_append_of_accepts emptyBuffer h]

omit [LawfulTracked C] in
/-- What depends on the key alone is true of cells with the same keys. -/
theorem forall_of_map_key_eq {P : C → Prop}
    (hkey : ∀ {first second : C}, key first = key second → P first → P second)
    {cells kept : List C} (hkeys : kept.map key = cells.map key) (h : ∀ cell ∈ cells, P cell) :
    ∀ cell ∈ kept, P cell := by
  intro cell hcell
  have hmem : key cell ∈ cells.map key := hkeys ▸ List.mem_map_of_mem hcell
  obtain ⟨original, horiginal, hsame⟩ := List.mem_map.mp hmem
  exact hkey hsame (h original horiginal)

/-- Cells with the keys of accepted cells are accepted. -/
theorem accepts_of_map_key_eq {cells kept : List C} (hkeys : kept.map key = cells.map key)
    (h : ∀ cell ∈ cells, Accepts cell) : ∀ cell ∈ kept, Accepts cell :=
  forall_of_map_key_eq LawfulTracked.accepts_of_key_eq hkeys h

end Laws

/-! ### Storable cells -/

/-- Every buffer takes a storable cell. Any other cell is refused by every buffer, which stays as it
is, for what the cell is and not for want of room. -/
structure Stores {C : Type} [Tracked C] (storable : C → Prop) : Prop where
  accepts {cell : C} (h : storable cell) : Accepts cell
  refuses {cell : C} (h : ¬storable cell) (buffer : Buffer C) :
    ∃ fault, append buffer cell = .refused fault buffer ∧ fault ≠ .tooLarge

namespace Stores

variable {C : Type} [Tracked C] {storable : C → Prop} (hstores : Stores storable)

include hstores

theorem of_accepts {cell : C} (h : Accepts cell) : storable cell := by
  apply Classical.byContradiction
  intro hcell
  obtain ⟨fault, hrefused, -⟩ := hstores.refuses hcell emptyBuffer
  have haccepts := h emptyBuffer
  rw [hrefused] at haccepts
  contradiction

theorem forall_of_map_key_eq [LawfulTracked C] {cells kept : List C}
    (hkeys : kept.map key = cells.map key) (h : ∀ cell ∈ cells, storable cell) :
    ∀ cell ∈ kept, storable cell := by
  refine Tracked.forall_of_map_key_eq (fun hkey hfirst ↦ hstores.of_accepts ?_) hkeys h
  exact LawfulTracked.accepts_of_key_eq hkey (hstores.accepts hfirst)

/-- Appending stops at the first cell that is not storable. -/
theorem foldlM_append_of_not_storable (buffer : Buffer C) {cells : List C}
    (h : ¬∀ cell ∈ cells, storable cell) : ∃ fault, fault ≠ .tooLarge ∧
      cells.foldlM (fun buffer cell ↦ (append buffer cell).reached) buffer = .error fault := by
  induction cells generalizing buffer with
  | nil => exact absurd nofun h
  | cons cell rest ih =>
    rw [List.foldlM_cons]
    by_cases hcell : storable cell
    · have haccepts : (append buffer cell).reached = .ok (append buffer cell).state := by
        rw [hstores.accepts hcell buffer]
        rfl
      rw [haccepts, Outcome.ok_bind]
      exact ih _ fun hrest ↦ h (List.forall_mem_cons.mpr ⟨hcell, hrest⟩)
    · obtain ⟨fault, hrefused, hfault⟩ := hstores.refuses hcell buffer
      rw [hrefused]
      exact ⟨fault, hfault, rfl⟩

/-- A buffer is made of the cells unless there is no room for it or a cell is not storable. -/
theorem bufferOf_cases (capacity : Nat) (cells : List C) :
    (sizeLimit (emptyBuffer : Buffer C) < capacity ∧ bufferOf capacity cells = .error .tooLarge) ∨
    ((∀ cell ∈ cells, storable cell) ∧
      bufferOf capacity cells = .ok (appendAll emptyBuffer cells)) ∨
    ((¬∀ cell ∈ cells, storable cell) ∧ ∃ fault, fault ≠ .tooLarge ∧
      bufferOf capacity cells = .error fault) := by
  rw [bufferOf_eq_bind, Word.requireRoom]
  by_cases hroom : capacity ≤ sizeLimit (emptyBuffer : Buffer C)
  · rw [if_pos hroom, Outcome.ok_bind]
    by_cases hcells : ∀ cell ∈ cells, storable cell
    · have haccepts (cell : C) (hcell : cell ∈ cells) := hstores.accepts (hcells cell hcell)
      exact .inr (.inl ⟨hcells, foldlM_append_of_accepts emptyBuffer haccepts⟩)
    · exact .inr (.inr ⟨hcells, hstores.foldlM_append_of_not_storable emptyBuffer hcells⟩)
  · rw [if_neg hroom]
    exact .inl ⟨Nat.lt_of_not_le hroom, rfl⟩

end Stores

/-! ### Cells kept as they are -/

theorem accepts_number (cell : Binary64) : Accepts cell := fun _ ↦ rfl

theorem accepts_time (cell : Int) : Accepts cell := fun _ ↦ rfl

theorem accepts_instant (cell : Option Instant) : Accepts cell := fun _ ↦ rfl

theorem stores_number : Stores fun _ : Binary64 ↦ True :=
  ⟨fun _ ↦ accepts_number _, fun h ↦ absurd trivial h⟩

theorem stores_time : Stores fun _ : Int ↦ True :=
  ⟨fun _ ↦ accepts_time _, fun h ↦ absurd trivial h⟩

theorem stores_instant : Stores fun _ : Option Instant ↦ True :=
  ⟨fun _ ↦ accepts_instant _, fun h ↦ absurd trivial h⟩

instance : LawfulTracked Binary64 where
  contents_empty := rfl
  contents_append h := by cases h; exact Array.toList_push
  accepts_of_key_eq _ _ := accepts_number _
  hasRoom _ := by show rowLimit ≤ Word.elements 8; decide

instance : LawfulTracked Int where
  contents_empty := rfl
  contents_append h := by cases h; exact Array.toList_push
  accepts_of_key_eq _ _ := accepts_time _
  hasRoom _ := by show rowLimit ≤ Word.elements 8; decide

instance : LawfulTracked (Option Instant) where
  contents_empty := rfl
  contents_append h := by cases h; exact Array.toList_push
  accepts_of_key_eq _ _ := accepts_instant _
  hasRoom _ := by show rowLimit ≤ Word.elements 24; decide

/-- A buffer that keeps cells as they are is the array of them. -/
theorem appendAll_number (cells : List Binary64) :
    (appendAll emptyBuffer cells : Buffer Binary64) = cells.toArray := by
  apply Array.toList_inj.mp
  exact contents_appendAll fun cell _ ↦ accepts_number cell

theorem appendAll_time (cells : List Int) :
    (appendAll emptyBuffer cells : Buffer Int) = cells.toArray := by
  apply Array.toList_inj.mp
  exact contents_appendAll fun cell _ ↦ accepts_time cell

theorem appendAll_instant (cells : List (Option Instant)) :
    (appendAll emptyBuffer cells : Buffer (Option Instant)) = cells.toArray := by
  apply Array.toList_inj.mp
  exact contents_appendAll fun cell _ ↦ accepts_instant cell

end Tracked

/-! ### Category indices -/

namespace IndexArray

/-- A widening buffer takes an index in its own format, or else in the narrowest that holds it. -/
theorem pushWidening_cases (array : IndexArray) {index : Nat} (h : IndexFormat.int32.fits index) :
    (array.format.fits index ∧ array.pushWidening index = .done () (array.append index)) ∨
      ∃ format, ¬array.format.fits index ∧ IndexFormat.narrowest? index = some format ∧
        format.fits index ∧
          array.pushWidening index = .done () ((array.recode format).append index) := by
  unfold pushWidening
  by_cases hfits : array.format.fits index
  · exact .inl ⟨hfits, by rw [if_pos hfits]⟩
  · obtain ⟨format, hformat, hindex⟩ := IndexFormat.exists_narrowest? h
    exact .inr ⟨format, hfits, hformat, hindex, by rw [if_neg hfits, hformat]⟩

/-- No format holds an index beyond the widest one, and the buffer stays as it is. -/
theorem pushWidening_of_lt (array : IndexArray) {index : Nat} (h : 2147483647 < index) :
    array.pushWidening index =
      .refused (.formatOverflow "INT32" index 2147483647) array := by
  have hnot (format : IndexFormat) : ¬format.fits index := fun hfits ↦
    Nat.not_le.mpr h (IndexFormat.fits_iff.mp (IndexFormat.fits_int32 hfits))
  have hnone : IndexFormat.narrowest? index = none :=
    List.find?_eq_none.mpr fun format _ ↦ hnot format
  unfold pushWidening
  rw [if_neg (hnot array.format), hnone]
  rfl

/-- An array keeps its indices in a format that holds an index too large for its own. -/
theorem toList_recode_of_not_fits {array : IndexArray} {format : IndexFormat} {index : Nat}
    (hfits : ¬array.format.fits index) (hindex : format.fits index) :
    (array.recode format).toList = array.toList := by
  refine toList_recode fun other hother ↦ IndexFormat.fits_of_le hindex ?_
  have hle := IndexFormat.fits_iff.mp (fits_of_mem hother)
  have hlt : array.format.maxIndex < index := by
    rw [IndexFormat.fits_iff] at hfits
    omega
  omega

end IndexArray

namespace Tracked

theorem accepts_index {index : Nat} (h : IndexFormat.int32.fits index) : Accepts index := by
  intro array
  show IndexArray.pushWidening array index = .done () (IndexArray.pushWidening array index).state
  rcases IndexArray.pushWidening_cases array h with ⟨-, hpush⟩ | ⟨format, -, -, -, hpush⟩
  · rw [hpush]
    rfl
  · rw [hpush]
    rfl

theorem fits_of_pushWidening {array next : IndexArray} {index : Nat}
    (h : array.pushWidening index = .done () next) : IndexFormat.int32.fits index := by
  unfold IndexArray.pushWidening at h
  split at h
  · next hfits => exact IndexFormat.fits_int32 hfits
  · split at h
    · next format hformat => exact IndexFormat.fits_int32 (IndexFormat.fits_of_narrowest? hformat)
    · contradiction

/-- An index is storable up to the bound of the widest format. -/
theorem stores_index : Stores fun index : Nat ↦ index ≤ 2147483647 where
  accepts h := accepts_index (IndexFormat.fits_iff.mpr h)
  refuses h array := ⟨_, IndexArray.pushWidening_of_lt array (Nat.not_le.mp h), nofun⟩

instance : LawfulTracked Nat where
  contents_empty := IndexArray.toList_zeros _ 0
  contents_append {array next index} h := by
    change IndexArray.pushWidening array index = .done () next at h
    show next.toList = array.toList ++ [index]
    rcases IndexArray.pushWidening_cases array (fits_of_pushWidening h) with
      ⟨hfits, hpush⟩ | ⟨format, hfits, -, hindex, hpush⟩
    · rw [hpush] at h
      cases h
      exact IndexArray.toList_append hfits
    · rw [hpush] at h
      cases h
      have hformat : (array.recode format).format.fits index := by
        rw [IndexArray.format_recode]
        exact hindex
      rw [IndexArray.toList_append hformat, IndexArray.toList_recode_of_not_fits hfits hindex]
  accepts_of_key_eq {first second} h hfirst := by
    have heq : first = second := h
    rwa [← heq]
  hasRoom array := by
    show rowLimit ≤ array.format.roomLimit
    cases array.format <;> decide

/-- A buffer of indices is no wider than any format that holds them all. -/
theorem bits_appendAll_le {indices : List Nat} {format : IndexFormat}
    (h : ∀ index ∈ indices, format.fits index) :
    (appendAll emptyBuffer indices : IndexArray).format.bits ≤ format.bits := by
  have hfrom (array : IndexArray) (hstart : array.format.bits ≤ format.bits) :
      (appendAll array indices : IndexArray).format.bits ≤ format.bits := by
    induction indices generalizing array with
    | nil => exact hstart
    | cons index rest ih =>
      have hindex := h index List.mem_cons_self
      have hint32 := IndexFormat.fits_int32 hindex
      refine ih (fun other hother ↦ h other (List.mem_cons_of_mem _ hother))
        (IndexArray.pushWidening array index).state ?_
      rcases IndexArray.pushWidening_cases array hint32 with
        ⟨-, hpush⟩ | ⟨other, -, hother, -, hpush⟩
      · rw [hpush]
        simpa [Attempt.state] using hstart
      · rw [hpush]
        simpa [Attempt.state] using IndexFormat.bits_le_of_narrowest? hother hindex
  apply hfrom (.empty .uint2)
  cases format <;> decide

end Tracked

end Columnar
