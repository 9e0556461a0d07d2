import Columnar.Proofs.Index.Refinement
import Columnar.Proofs.Layout.Materializing

/-!
# Gathering and collecting

All five stores are rearranged by one law (`Store.Rearranges`). A gathered store has one cell for
each entry of the mapping, the one that the entry names or missing. A collected store has the size
asked for: the cells given, cut or filled up with missing. Only an index array refuses cells, and
only for an index among those it keeps that its format does not hold (`IndexArray.refusal?`).

There is no storage with an element per cell beyond the limit of the store (`Store.Limited`). An
index array whose indices share bytes can still be asked for, but then it is short
(`IndexArray.Collects`).

What the stores that encode their cells choose freely is settled as well: an index array stays in
its format, and a store of instants keeps nanoseconds exactly when one of its instants has some
(`InstantStore.Canonical`).
-/

set_option autoImplicit false
set_option relaxedAutoImplicit false

namespace Columnar

/-! ### The law -/

section Law

variable {S C : Type} [Cell C] [Store S C]

/-- What gathering from a store and collecting into one like it give. `refusal?` says why a cell
cannot be collected. -/
structure Store.Rearranges (store : S) (refusal? : C → Option Fault) : Prop where
  size_gather : ∀ mapping : Mapping, Store.size (Store.gather store mapping) = mapping.size
  gather_inside : ∀ (mapping : Mapping) (row position : Nat),
    mapping.entries[row]? = some (position : Int) → position < Store.size store →
      Store.get? (Store.gather store mapping) row = Store.get? store position
  gather_outside : ∀ (mapping : Mapping) (row : Nat) (entry : Int),
    mapping.entries[row]? = some entry → entry < 0 ∨ Store.size store ≤ entry →
      Store.get? (Store.gather store mapping) row = some Cell.missing
  collects : ∀ (size : Nat) (cells : List C), size ≤ Store.sizeLimit store →
    (cells.take size).findSome? refusal? = none →
      ∃ packed, Store.collect store size cells = .ok packed ∧ Store.size packed = size ∧
        ∀ row < size, Store.get? packed row = some (cells[row]?.getD Cell.missing)
  refuses : ∀ (size : Nat) (cells : List C) (fault : Fault), size ≤ Store.sizeLimit store →
    (cells.take size).findSome? refusal? = some fault →
      Store.collect store size cells = .error fault

/-- Nothing is collected beyond the limit of the store. -/
def Store.Limited (store : S) : Prop :=
  ∀ (size : Nat) (cells : List C), Store.sizeLimit store < size →
    Store.collect store size cells = .error .tooLarge

theorem Store.collect_of_le {store : S} {size : Nat} (h : size ≤ Store.sizeLimit store)
    (cells : List C) : Store.collect store size cells = Store.pack store size cells := by
  rw [Store.collect, Word.requireRoom_eq_ok_iff.mpr h, Outcome.ok_bind]

theorem Store.limited (store : S) : Store.Limited store := by
  intro size cells h
  rw [Store.collect, Word.requireRoom, if_neg (Nat.not_le.mpr h), Outcome.error_bind]

omit [Store S C] in
theorem Cell.getElem?_fit {size row : Nat} (cells : List C) (hrow : row < size) :
    (Cell.fit size cells)[row]? = some (cells[row]?.getD Cell.missing) := by
  have hfit : row < (Cell.fit size cells).length := by rwa [Cell.length_fit]
  rw [Cell.fit, List.getElem?_append, List.length_take]
  by_cases hcell : row < cells.length
  · rw [if_pos (Nat.lt_min.mpr ⟨hrow, hcell⟩), List.getElem?_take_of_lt hrow,
      List.getElem?_eq_getElem hcell, Option.getD_some]
  · rw [if_neg fun h ↦ hcell (Nat.lt_min.mp h).2, List.getElem?_eq_none (Nat.not_lt.mp hcell),
      Option.getD_none, List.getElem?_replicate, if_pos (by omega)]

variable [LawfulStore S]

/-- The cell of a gathered row. -/
theorem Store.get?_gather (store : S) {mapping : Mapping} {row : Nat} {entry : Int}
    (h : mapping.entries[row]? = some entry) :
    Store.get? (Store.gather store mapping) row =
      some (match Mapping.target? (Store.size store) entry with
        | some position => Store.read store position
        | none => Cell.missing) := by
  have hrow : row < Store.size (Store.gather store mapping) := by
    rw [LawfulStore.size_gather]
    exact (Array.getElem?_eq_some_iff.mp h).1
  rw [Store.get?_of_lt hrow, LawfulStore.read_gather, Layout.readThrough, Mapping.resolve?, h,
    Option.map_some]
  cases Mapping.target? (Store.size store) entry <;> rfl

/-- The cells of a packed store. -/
theorem Store.get?_pack {store packed : S} {size : Nat} {cells : List C}
    (h : Store.pack store size cells = .ok packed) {row : Nat} (hrow : row < size) :
    Store.get? packed row = some (cells[row]?.getD Cell.missing) := by
  rw [Store.get?_of_lt (by rwa [LawfulStore.size_pack h]), LawfulStore.read_pack h,
    Cell.getElem?_fit cells hrow, Option.getD_some]

/-- Any lawful store that packs the cells it has no fault for, and refuses others with the first
fault. -/
theorem Store.rearranges {store : S} {refusal? : C → Option Fault}
    (hpacks : ∀ (size : Nat) (cells : List C), (cells.take size).findSome? refusal? = none →
      ∃ packed, Store.pack store size cells = .ok packed)
    (hrefuses : ∀ (size : Nat) (cells : List C) (fault : Fault),
      (cells.take size).findSome? refusal? = some fault →
        Store.pack store size cells = .error fault) : Store.Rearranges store refusal? where
  size_gather := LawfulStore.size_gather store
  gather_inside mapping row position hentry hposition := by
    rw [Store.get?_gather store hentry, Mapping.target?_eq_some_iff.mpr ⟨rfl, hposition⟩,
      Store.get?_of_lt hposition]
  gather_outside mapping row entry hentry houtside := by
    have hnone : Mapping.target? (Store.size store) entry = none := by
      rw [Mapping.target?, if_neg (by omega)]
    rw [Store.get?_gather store hentry, hnone]
  collects size cells hsize hnone := by
    obtain ⟨packed, hpack⟩ := hpacks size cells hnone
    rw [Store.collect_of_le hsize]
    exact ⟨packed, hpack, LawfulStore.size_pack hpack, fun row hrow ↦ Store.get?_pack hpack hrow⟩
  refuses size cells fault hsize hfault := by
    rw [Store.collect_of_le hsize]
    exact hrefuses size cells fault hfault

/-- A store that packs any cells. -/
theorem Store.rearranges_of_takes {store : S} (htakes : ∀ cell : C, Store.Takes store cell) :
    Store.Rearranges store fun _ : C ↦ none :=
  Store.rearranges
    (fun size cells _ ↦ LawfulStore.exists_pack store size fun cell _ ↦ htakes cell)
    (fun size cells fault h ↦ by
      obtain ⟨cell, -, hfault⟩ := List.exists_of_findSome?_eq_some h
      cases hfault)

end Law

/-! ### Category indices -/

namespace IndexArray

/-- Why an index is not held. -/
def refusal? (prototype : IndexArray) (index : Nat) : Option Fault :=
  if prototype.format.fits index then none else some (prototype.format.overflow index)

variable {prototype : IndexArray}

theorem refusal?_eq_none_iff {index : Nat} :
    prototype.refusal? index = none ↔ prototype.format.fits index := by
  unfold refusal?
  split <;> simp_all

theorem refusal?_eq_some_iff {index : Nat} {fault : Fault} :
    prototype.refusal? index = some fault ↔
      prototype.format.maxIndex < index ∧ prototype.format.overflow index = fault := by
  rw [← Nat.not_le, ← IndexFormat.fits_iff]
  unfold refusal?
  split <;> simp_all

theorem find?_of_findSome?_refusal? {indices : List Nat} {fault : Fault}
    (h : indices.findSome? prototype.refusal? = some fault) :
    ∃ index, indices.find? (prototype.format.maxIndex < ·) = some index ∧
      prototype.format.overflow index = fault := by
  induction indices with
  | nil => contradiction
  | cons first rest ih =>
    rw [List.findSome?_cons] at h
    rw [List.find?_cons]
    cases hfirst : prototype.refusal? first with
    | none =>
      have hle := IndexFormat.fits_iff.mp (refusal?_eq_none_iff.mp hfirst)
      rw [hfirst] at h
      rw [decide_eq_false (Nat.not_lt.mpr hle)]
      exact ih h
    | some found =>
      obtain ⟨hlt, hfault⟩ := refusal?_eq_some_iff.mp hfirst
      rw [hfirst, Option.some.injEq] at h
      rw [decide_eq_true hlt]
      exact ⟨first, rfl, hfault.trans h⟩

/-- Packing refuses the first index that the format does not hold, among those that are kept. -/
theorem pack_of_findSome? {size : Nat} {indices : List Nat} {fault : Fault}
    (h : (indices.take size).findSome? prototype.refusal? = some fault) :
    Store.pack prototype size indices = .error fault := by
  obtain ⟨index, hfind, rfl⟩ := find?_of_findSome?_refusal? h
  have hformat := format_zeros prototype.format size
  have hroom : 0 + (indices.take size).length ≤ (zeros prototype.format size).size := by
    rw [Nat.zero_add, List.length_take]
    exact Nat.min_le_left _ _
  show (zeros prototype.format size).storeFrom 0 (indices.take size) = _
  rw [storeFrom_of_find? hroom (by rw [hformat]; exact hfind), hformat]

theorem exists_pack_of_findSome? {size : Nat} {indices : List Nat}
    (h : (indices.take size).findSome? prototype.refusal? = none) :
    ∃ packed, Store.pack prototype size indices = .ok packed := by
  apply exists_store
  · rw [List.length_take]
    exact Nat.min_le_left _ _
  · intro index hindex
    rw [format_zeros]
    exact refusal?_eq_none_iff.mp (List.findSome?_eq_none_iff.mp h index hindex)

theorem rearranges (prototype : IndexArray) : Store.Rearranges prototype prototype.refusal? :=
  Store.rearranges (fun _ _ h ↦ exists_pack_of_findSome? h) fun _ _ _ h ↦ pack_of_findSome? h

theorem format_of_collect {packed : IndexArray} {size : Nat} {indices : List Nat}
    (h : Store.collect prototype size indices = .ok packed) :
    packed.format = prototype.format :=
  (of_pack (Store.pack_of_collect h)).2.1

/-- What a caller who chooses the size collects, in the format of an array. -/
structure Collects (prototype : IndexArray) : Prop where
  within : ∀ (size : Nat) (indices : List Nat), size ≤ prototype.format.sizeLimit →
    IndexBuffer.collect prototype.format size (indices.take size) =
      Store.collect prototype size indices >>= fun packed ↦ .ok (.whole packed)
  wide : prototype.format.width? = none → ∀ (size : Nat) (indices : List Nat),
    prototype.format.sizeLimit < size →
      IndexBuffer.collect prototype.format size indices = .error .tooLarge
  /-- Where indices share bytes, more of them than a word counts the bits of can be asked for; not
  all of them can be read. -/
  short : ∀ width, prototype.format.width? = some width → ∀ (size : Nat) (indices : List Nat),
    prototype.format.sizeLimit < size → size ≤ Word.maxUnsigned →
      (∃ array : ShortArray, IndexBuffer.collect prototype.format size [] = .ok (.short array)) ∧
        ∀ buffer, IndexBuffer.collect prototype.format size indices = .ok buffer →
          ∃ array : ShortArray, buffer = .short array ∧ array.size = size ∧
            array.format = prototype.format ∧
              ∃ position < size, array.get? position = .error .tooLarge

theorem collects (prototype : IndexArray) : prototype.Collects where
  within size indices hsize := by
    rw [IndexBuffer.collect_of_le hsize, Store.collect_of_le hsize]
    rfl
  wide hwide size indices hsize := by
    rw [IndexBuffer.collect, IndexBuffer.ofSize_of_wide hwide hsize, Outcome.error_bind]
  short width hwidth size indices hsize hword := by
    have hformat := IndexFormat.width?_eq_some_iff.mp hwidth
    rw [hformat] at hsize ⊢
    obtain ⟨array, harray, rfl, rfl⟩ := IndexBuffer.exists_ofSize_short hsize hword
    simp only [IndexBuffer.collect, harray, Outcome.ok_bind]
    refine ⟨⟨array, rfl⟩, fun buffer hbuffer ↦ ?_⟩
    obtain ⟨stored, rfl, hstored, hkept⟩ := IndexBuffer.of_store_short hbuffer
    obtain ⟨position, hposition, hread⟩ := stored.exists_unread
    exact ⟨stored, rfl, hstored, hkept, position, hstored ▸ hposition, hread⟩

end IndexArray

/-! ### Instants -/

namespace InstantStore

/-- The nanoseconds are kept exactly when an instant needs them. -/
def Canonical (store : InstantStore) : Prop :=
  store.isHighPrecision = (Store.toList store).any (InstantStore.nanosOf · != 0)

theorem canonical_ofInstants (size : Nat) (instants : List (Option Instant)) :
    (InstantStore.ofInstants size instants).Canonical := by
  have hpack : Store.pack (InstantStore.ofInstants 0 []) size instants =
      .ok (InstantStore.ofInstants size instants) := rfl
  unfold Canonical
  rw [Store.toList_pack hpack]
  unfold ofInstants isHighPrecision
  simp only [List.any_map, Function.comp_def]
  split
  · next hany => simp [hany]
  · next hany => simpa using hany

theorem canonical_of_collect {store packed : InstantStore} {size : Nat}
    {instants : List (Option Instant)} (h : Store.collect store size instants = .ok packed) :
    packed.Canonical := by
  have hpack := Store.pack_of_collect h
  cases hpack
  exact canonical_ofInstants size instants

end InstantStore

/-! ### All five -/

end Columnar
