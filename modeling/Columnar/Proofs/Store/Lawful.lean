import Columnar.Layout.Basic
import Columnar.Proofs.Index.Storing
import Columnar.Store.Encoded
import Columnar.Store.Plain

/-!
# The laws of stores

Layouts treat the five stores alike, and rely on this much of each: reading past the end reads
missing, a gathered store reads what its mapping shows, and a packed store reads the cells it was
packed from. Only index arrays can refuse to pack, and what a store takes does not depend on the
cells it holds (`Store.Takes`), so that a store derived from another takes the same cells.
-/

set_option autoImplicit false
set_option relaxedAutoImplicit false

namespace Columnar

/-- A store takes a cell when the cell can be packed into a store of the same kind. -/
def Store.Takes {S C : Type} [Cell C] [Store S C] (store : S) (cell : C) : Prop :=
  ∃ packed : S, Store.pack store 1 [cell] = .ok packed

/-- What layouts rely on. The limit covers every size that a sparse layout can have. -/
class LawfulStore (S : Type) {C : outParam Type} [Cell C] [Store S C] : Prop where
  read_of_size_le (store : S) {position : Nat} (h : Store.size store ≤ position) :
    Store.read store position = (Cell.missing : C)
  size_gather (store : S) (mapping : Mapping) :
    Store.size (Store.gather store mapping) = mapping.size
  read_gather (store : S) (mapping : Mapping) (row : Nat) :
    Store.read (Store.gather store mapping) row = Layout.readThrough store mapping row
  takes_missing (store : S) : Store.Takes store (Cell.missing : C)
  takes_read (store : S) (position : Nat) : Store.Takes store (Store.read store position)
  takes_gather (store : S) (mapping : Mapping) (cell : C) :
    Store.Takes (Store.gather store mapping) cell ↔ Store.Takes store cell
  exists_pack (store : S) (size : Nat) {cells : List C}
    (h : ∀ cell ∈ cells, Store.Takes store cell) :
    ∃ packed : S, Store.pack store size cells = .ok packed
  size_pack {store packed : S} {size : Nat} {cells : List C}
    (h : Store.pack store size cells = .ok packed) : Store.size packed = size
  read_pack {store packed : S} {size : Nat} {cells : List C}
    (h : Store.pack store size cells = .ok packed) (position : Nat) :
    Store.read packed position = (Cell.fit size cells)[position]?.getD Cell.missing
  takes_pack {store packed : S} {size : Nat} {cells : List C}
    (h : Store.pack store size cells = .ok packed) (cell : C) :
    Store.Takes packed cell ↔ Store.Takes store cell
  le_sizeLimit (store : S) : 4294967295 ≤ Store.sizeLimit store

/-! ### Stores that keep cells as they are -/

/-- A gathered array reads what the mapping shows. -/
theorem Cell.getD_gather {C : Type} [Cell C] (cells : Array C) (mapping : Mapping) (row : Nat) :
    (Cell.gather cells mapping)[row]?.getD Cell.missing =
      match mapping.resolve? row cells.size with
      | some (some position) => cells[position]?.getD Cell.missing
      | _ => Cell.missing := by
  unfold Cell.gather Mapping.resolve? Mapping.toList
  rw [List.getElem?_map, Array.getElem?_toList]
  cases mapping.entries[row]? with
  | none => rfl
  | some entry =>
    simp only [Option.map_some, Option.getD_some]
    cases Mapping.target? cells.size entry <;> rfl

theorem Cell.length_gather {C : Type} [Cell C] (cells : Array C) (mapping : Mapping) :
    (Cell.gather cells mapping).length = mapping.size := by
  simp [Cell.gather, Mapping.toList, Mapping.size]

theorem Cell.length_fit {C : Type} [Cell C] (size : Nat) (cells : List C) :
    (Cell.fit size cells).length = size := by
  simp only [Cell.fit, List.length_append, List.length_take, List.length_replicate]
  omega

instance : LawfulStore NumberStore where
  read_of_size_le store position h := by
    have hnone : store.numbers[position]? = none := Array.getElem?_eq_none h
    simp only [Store.read, hnone, Option.getD_none]
  size_gather store mapping := by simp [Store.size, Store.gather, Cell.length_gather]
  read_gather store mapping row := by
    simp only [Store.read, Store.gather, List.getElem?_toArray]
    exact Cell.getD_gather store.numbers mapping row
  takes_missing _ := ⟨_, rfl⟩
  takes_read _ _ := ⟨_, rfl⟩
  takes_gather _ _ _ := ⟨fun _ ↦ ⟨_, rfl⟩, fun _ ↦ ⟨_, rfl⟩⟩
  exists_pack _ _ _ _ := ⟨_, rfl⟩
  size_pack h := by cases h; simp [Store.size, Cell.length_fit]
  read_pack h position := by cases h; simp [Store.read]
  takes_pack _ _ := ⟨fun _ ↦ ⟨_, rfl⟩, fun _ ↦ ⟨_, rfl⟩⟩
  le_sizeLimit _ := by show 4294967295 ≤ Word.elements 8; decide

instance : LawfulStore TimeStore where
  read_of_size_le store position h := by
    have hnone : store.nanos[position]? = none := Array.getElem?_eq_none h
    simp only [Store.read, hnone, Option.getD_none]
  size_gather store mapping := by simp [Store.size, Store.gather, Cell.length_gather]
  read_gather store mapping row := by
    simp only [Store.read, Store.gather, List.getElem?_toArray]
    exact Cell.getD_gather store.nanos mapping row
  takes_missing _ := ⟨_, rfl⟩
  takes_read _ _ := ⟨_, rfl⟩
  takes_gather _ _ _ := ⟨fun _ ↦ ⟨_, rfl⟩, fun _ ↦ ⟨_, rfl⟩⟩
  exists_pack _ _ _ _ := ⟨_, rfl⟩
  size_pack h := by cases h; simp [Store.size, Cell.length_fit]
  read_pack h position := by cases h; simp [Store.read]
  takes_pack _ _ := ⟨fun _ ↦ ⟨_, rfl⟩, fun _ ↦ ⟨_, rfl⟩⟩
  le_sizeLimit _ := by show 4294967295 ≤ Word.elements 8; decide

instance : LawfulStore ObjectStore where
  read_of_size_le store position h := by
    have hnone : store.values[position]? = none := Array.getElem?_eq_none h
    simp only [Store.read, hnone, Option.getD_none]
  size_gather store mapping := by simp [Store.size, Store.gather, Cell.length_gather]
  read_gather store mapping row := by
    simp only [Store.read, Store.gather, List.getElem?_toArray]
    exact Cell.getD_gather store.values mapping row
  takes_missing _ := ⟨_, rfl⟩
  takes_read _ _ := ⟨_, rfl⟩
  takes_gather _ _ _ := ⟨fun _ ↦ ⟨_, rfl⟩, fun _ ↦ ⟨_, rfl⟩⟩
  exists_pack _ _ _ _ := ⟨_, rfl⟩
  size_pack h := by cases h; simp [Store.size, Cell.length_fit]
  read_pack h position := by cases h; simp [Store.read]
  takes_pack _ _ := ⟨fun _ ↦ ⟨_, rfl⟩, fun _ ↦ ⟨_, rfl⟩⟩
  le_sizeLimit _ := by show 4294967295 ≤ ObjectStore.sizeLimit; decide

/-! ### Category indices -/

theorem IndexArray.read_eq (array : IndexArray) (position : Nat) :
    Store.read array position = array.toList[position]?.getD 0 := by
  rw [IndexArray.getElem?_toList]
  rfl

/-- An index array takes the indices that its format holds. -/
theorem IndexArray.takes_iff {array : IndexArray} {index : Nat} :
    Store.Takes array index ↔ array.format.fits index := by
  have hroom : [index].length ≤ (IndexArray.zeros array.format 1).size := Nat.le_refl 1
  have hformat : (IndexArray.zeros array.format 1).format = array.format :=
    IndexCells.format_zeros _ _
  constructor
  · rintro ⟨packed, hpacked⟩
    rw [← hformat]
    exact (IndexArray.of_store hroom hpacked).2.2.1 index (by simp)
  · intro hindex
    obtain ⟨packed, hpacked⟩ := IndexArray.exists_store hroom (by simpa [hformat] using hindex)
    exact ⟨packed, hpacked⟩

/-- Packing keeps the format, and the array holds the indices, filled up with `0`. -/
theorem IndexArray.of_pack {array packed : IndexArray} {size : Nat} {indices : List Nat}
    (h : Store.pack array size indices = .ok packed) :
    packed.size = size ∧ packed.format = array.format ∧ packed.toList = Cell.fit size indices := by
  have hroom : (indices.take size).length ≤ (IndexArray.zeros array.format size).size := by
    rw [List.length_take]
    exact Nat.min_le_left _ _
  obtain ⟨hsize, hformat, -, hlist⟩ := IndexArray.of_store hroom h
  refine ⟨hsize, hformat.trans (IndexCells.format_zeros _ _), ?_⟩
  rw [hlist, IndexArray.toList_zeros, Cell.fit, List.drop_replicate, List.length_take]
  congr 2
  omega

instance : LawfulStore IndexArray where
  read_of_size_le array position h := by
    change array.size ≤ position at h
    rw [IndexArray.read_eq, List.getElem?_eq_none (by rwa [IndexArray.length_toList])]
    rfl
  size_gather _ _ := rfl
  read_gather array mapping row := IndexArray.get?_gather array mapping row
  takes_missing array := IndexArray.takes_iff.mpr (by simp [IndexFormat.fits_iff, Cell.missing])
  takes_read array position := IndexArray.takes_iff.mpr (array.fits_getD_get? position)
  takes_gather array mapping index := by
    rw [IndexArray.takes_iff, IndexArray.takes_iff]
    show (array.gather mapping).format.fits index ↔ _
    rw [IndexArray.format_gather]
  exists_pack array size indices h := by
    have hzeros : (IndexArray.zeros array.format size).format = array.format :=
      IndexCells.format_zeros _ _
    apply IndexArray.exists_store
    · rw [List.length_take]
      exact Nat.min_le_left _ _
    · intro index hindex
      rw [hzeros]
      exact IndexArray.takes_iff.mp (h index (List.mem_of_mem_take hindex))
  size_pack h := (IndexArray.of_pack h).1
  read_pack h position := by rw [IndexArray.read_eq, (IndexArray.of_pack h).2.2]; rfl
  takes_pack h index := by
    rw [IndexArray.takes_iff, IndexArray.takes_iff, (IndexArray.of_pack h).2.1]
  le_sizeLimit array := by
    show 4294967295 ≤ array.format.sizeLimit
    cases array.format <;> decide

/-! ### Instants -/

/-- Taking an instant apart and putting it together gives it back. -/
theorem Instant.toOption_ofParts (instant : Option Instant) :
    (Instant.ofParts (InstantStore.secondsOf instant) (InstantStore.nanosOf instant)).toOption =
      instant := by
  cases instant with
  | none => rfl
  | some instant =>
    show (Instant.ofParts instant.seconds instant.nanos).toOption = some instant
    rw [Instant.ofParts, dif_neg instant.seconds_ne, dif_pos instant.nanos_lt]
    rfl

/-- Leaving out nanoseconds that are all zero loses nothing. -/
theorem InstantStore.read_ofInstants (size : Nat) (instants : List (Option Instant))
    (position : Nat) :
    (InstantStore.ofInstants size instants).read position =
      (Cell.fit size instants)[position]?.getD none := by
  unfold InstantStore.ofInstants InstantStore.read
  simp only [List.getElem?_toArray, List.getElem?_map]
  cases hcell : (Cell.fit size instants)[position]? with
  | none => rfl
  | some instant =>
    simp only [Option.map_some, Option.getD_some]
    split
    · simp only [Option.elim_some, List.getElem?_toArray, List.getElem?_map, hcell,
        Option.map_some, Option.getD_some]
      exact Instant.toOption_ofParts instant
    · next hzero =>
      have hnanos : InstantStore.nanosOf instant = 0 := by
        have hmem := List.mem_map_of_mem (f := InstantStore.nanosOf)
          (List.mem_of_getElem? hcell)
        simp only [List.any_eq_true, not_exists, not_and, bne_iff_ne, ne_eq,
          Decidable.not_not] at hzero
        exact hzero _ hmem
      rw [Option.elim_none, ← hnanos]
      exact Instant.toOption_ofParts instant

instance : LawfulStore InstantStore where
  read_of_size_le store position h := by
    show InstantStore.read store position = none
    have hnone : store.seconds[position]? = none := Array.getElem?_eq_none h
    simp only [InstantStore.read, hnone]
  size_gather store mapping := by
    simp [Store.size, Store.gather, InstantStore.ofInstants, Cell.length_fit]
  read_gather store mapping row := by
    show (InstantStore.ofInstants _ _).read row = _
    rw [InstantStore.read_ofInstants, Cell.fit, List.take_of_length_le (by simp [Mapping.size,
      Mapping.toList])]
    simp only [List.length_map, Mapping.toList, Mapping.size, Array.length_toList, Nat.sub_self,
      List.replicate_zero, List.append_nil, List.getElem?_map, Array.getElem?_toList,
      Layout.readThrough, Mapping.resolve?]
    cases mapping.entries[row]? with
    | none => rfl
    | some entry =>
      simp only [Option.map_some, Option.getD_some, Store.size]
      cases Mapping.target? store.seconds.size entry <;> rfl
  takes_missing _ := ⟨_, rfl⟩
  takes_read _ _ := ⟨_, rfl⟩
  takes_gather _ _ _ := ⟨fun _ ↦ ⟨_, rfl⟩, fun _ ↦ ⟨_, rfl⟩⟩
  exists_pack _ _ _ _ := ⟨_, rfl⟩
  size_pack h := by cases h; simp [Store.size, InstantStore.ofInstants, Cell.length_fit]
  read_pack h position := by cases h; exact InstantStore.read_ofInstants _ _ position
  takes_pack _ _ := ⟨fun _ ↦ ⟨_, rfl⟩, fun _ ↦ ⟨_, rfl⟩⟩
  le_sizeLimit _ := by show 4294967295 ≤ Word.elements 8; decide

/-! ### The cells of a store -/

section Cells

variable {S C : Type} [Cell C] [Store S C]

namespace Store

theorem mem_toList_iff {store : S} {cell : C} :
    cell ∈ Store.toList store ↔
      ∃ position < Store.size store, Store.read store position = cell := by
  simp [Store.toList]

theorem length_toList (store : S) : (Store.toList store).length = Store.size store := by
  simp [Store.toList]

theorem read_of_getElem?_toList {store : S} {position : Nat} {cell : C}
    (h : (Store.toList store)[position]? = some cell) : Store.read store position = cell := by
  obtain ⟨hlt, hcell⟩ := List.getElem?_eq_some_iff.mp h
  simpa [Store.toList] using hcell

/-- Every position of a store reads one of its cells or missing. -/
theorem read_eq_missing_or_mem [LawfulStore S] (store : S) (position : Nat) :
    Store.read store position = Cell.missing ∨ Store.read store position ∈ Store.toList store := by
  by_cases h : position < Store.size store
  · exact .inr (mem_toList_iff.mpr ⟨position, h, rfl⟩)
  · exact .inl (LawfulStore.read_of_size_le store (Nat.not_lt.mp h))

theorem readThrough_eq_missing_or_mem [LawfulStore S] (store : S) (mapping : Mapping) (row : Nat) :
    Layout.readThrough store mapping row = Cell.missing ∨
      Layout.readThrough store mapping row ∈ Store.toList store := by
  unfold Layout.readThrough
  split
  · exact read_eq_missing_or_mem store _
  · exact .inl rfl

theorem mem_toList_gather [LawfulStore S] {store : S} {mapping : Mapping} {cell : C}
    (h : cell ∈ Store.toList (Store.gather store mapping)) :
    cell = Cell.missing ∨ cell ∈ Store.toList store := by
  obtain ⟨row, -, rfl⟩ := mem_toList_iff.mp h
  rw [LawfulStore.read_gather]
  exact readThrough_eq_missing_or_mem store mapping row

/-- A packed store holds just the cells it was packed from, filled up with missing. -/
theorem toList_pack [LawfulStore S] {store packed : S} {size : Nat} {cells : List C}
    (h : Store.pack store size cells = .ok packed) :
    Store.toList packed = Cell.fit size cells := by
  refine List.ext_getElem? ?_
  intro position
  unfold Store.toList
  rw [List.getElem?_map, LawfulStore.size_pack h]
  by_cases hposition : position < size
  · have hfit : position < (Cell.fit size cells).length := by rwa [Cell.length_fit]
    rw [List.getElem?_range hposition, Option.map_some, LawfulStore.read_pack h,
      List.getElem?_eq_getElem hfit, Option.getD_some]
  · have hrange : (List.range size)[position]? = none := by simpa using hposition
    have hfit : (Cell.fit size cells)[position]? = none := by
      simpa [Cell.length_fit] using hposition
    rw [hrange, hfit, Option.map_none]

omit [Store S C] in
theorem fit_of_length_eq {size : Nat} {cells : List C} (h : cells.length = size) :
    Cell.fit size cells = cells := by
  subst h
  simp [Cell.fit]

omit [Store S C] in
theorem mem_fit {size : Nat} {cells : List C} {cell : C} (h : cell ∈ Cell.fit size cells) :
    cell = Cell.missing ∨ cell ∈ cells := by
  rcases List.mem_append.mp h with hmem | hmem
  · exact .inr (List.mem_of_mem_take hmem)
  · exact .inl (List.eq_of_mem_replicate hmem)

/-- Cells that a store takes can be collected, as many as any sparse layout has rows. -/
theorem exists_collect [LawfulStore S] (store : S) {size : Nat} {cells : List C}
    (hsize : size ≤ 4294967295) (hcells : ∀ cell ∈ cells, Store.Takes store cell) :
    ∃ packed : S, Store.collect store size cells = .ok packed ∧
      Store.pack store size cells = .ok packed := by
  obtain ⟨packed, hpacked⟩ := LawfulStore.exists_pack store size hcells
  have hroom : Word.requireRoom size (Store.sizeLimit store) = .ok () :=
    Word.requireRoom_eq_ok_iff.mpr (Nat.le_trans hsize (LawfulStore.le_sizeLimit store))
  refine ⟨packed, ?_, hpacked⟩
  rw [Store.collect, hroom]
  exact hpacked

/-- A store that packing leaves as it is holds just the cells it was packed from. -/
theorem toList_of_pack_length [LawfulStore S] (prototype : S) {store : S} {cells : List C}
    (h : Store.pack prototype cells.length cells = .ok store) : Store.toList store = cells := by
  rw [toList_pack h, fit_of_length_eq rfl]

end Store

end Cells

/-! ### The cells of each store -/

theorem NumberStore.toList_mk (numbers : List Binary64) :
    Store.toList (NumberStore.mk numbers.toArray) = numbers := by
  apply Store.toList_of_pack_length (NumberStore.mk #[])
  simp [Store.pack, Store.fit_of_length_eq]

theorem TimeStore.toList_mk (nanos : List Int) :
    Store.toList (TimeStore.mk nanos.toArray) = nanos := by
  apply Store.toList_of_pack_length (TimeStore.mk #[])
  simp [Store.pack, Store.fit_of_length_eq]

theorem ObjectStore.toList_mk (values : List Value) :
    Store.toList (ObjectStore.mk values.toArray) = values := by
  apply Store.toList_of_pack_length (ObjectStore.mk #[])
  simp [Store.pack, Store.fit_of_length_eq]

theorem InstantStore.toList_ofInstants (instants : List (Option Instant)) :
    Store.toList (InstantStore.ofInstants instants.length instants) = instants := by
  apply Store.toList_of_pack_length (InstantStore.ofInstants 0 [])
  rfl

theorem IndexArray.toList_eq (array : IndexArray) : Store.toList array = array.toList := by
  apply List.map_congr_left
  intro position hposition
  have hlt : position < array.size := List.mem_range.mp hposition
  show (array.get? position).getD 0 = array.cells.get position
  rw [IndexArray.get?, if_pos hlt, Option.getD_some]

end Columnar
