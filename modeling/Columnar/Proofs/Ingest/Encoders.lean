import Columnar.Proofs.Column.Filling
import Columnar.Proofs.Ingest.Layouts
import Columnar.Proofs.Ingest.Normalizing
import Columnar.Proofs.Store.Collecting

/-!
# The two sparse encoders

A list of cells is encoded against a default by a builder, which compares keys, and by
`SparseStore.ofCells`, which compares cells as storage does. Both make the same store, for each kind
of cell that is tracked (`encoders_agree`): its positions are the rows whose cell is not the same as
the default, and every reader finds in it what decoding the deltas gives (`SparseStore.Encodes`).
`ofCells` also takes a size of its own. Rows past the end of the list read the default, and cells
past the size are ignored. Only an exception that the prototype does not hold, or else a size that
no sparse store has, is refused (`EncodersAgree`).
-/

set_option autoImplicit false
set_option relaxedAutoImplicit false

namespace Columnar

/-! ### The cells of rows -/

section Rows

variable {C : Type}

/-- The cell of a row, and the default where the list has ended. -/
def rowCell (default : C) (cells : List C) (row : Nat) : C := cells[row]?.getD default

/-- The list, cut or filled up with the default. -/
def padTo (default : C) (size : Nat) (cells : List C) : List C :=
  (List.range size).map (rowCell default cells)

theorem length_padTo (default : C) (size : Nat) (cells : List C) :
    (padTo default size cells).length = size := by
  simp [padTo]

theorem getElem?_padTo {default : C} {size row : Nat} {cells : List C} (hrow : row < size) :
    (padTo default size cells)[row]? = some (rowCell default cells row) := by
  rw [padTo, List.getElem?_map, List.getElem?_range hrow, Option.map_some]

theorem padTo_eq_append (default : C) (size : Nat) (cells : List C) :
    padTo default size cells =
      cells.take size ++ List.replicate (size - cells.length) default := by
  refine List.ext_getElem? fun row ↦ ?_
  by_cases hrow : row < size
  · rw [getElem?_padTo hrow, rowCell, List.getElem?_append, List.length_take]
    by_cases hlist : row < cells.length
    · rw [if_pos (Nat.lt_min.mpr ⟨hrow, hlist⟩), List.getElem?_take_of_lt hrow,
        List.getElem?_eq_getElem hlist, Option.getD_some]
    · have hpast : ¬row < min size cells.length := fun h ↦ hlist (Nat.lt_min.mp h).2
      rw [if_neg hpast, List.getElem?_eq_none (Nat.not_lt.mp hlist), Option.getD_none,
        List.getElem?_replicate, if_pos (by omega)]
  · have hle := Nat.not_lt.mp hrow
    rw [List.getElem?_eq_none (by rwa [length_padTo]), List.getElem?_eq_none]
    rw [List.length_append, List.length_take, List.length_replicate]
    omega

end Rows

/-! ### What an encoding is -/

variable {S C : Type} [Tracked C] [Store S C]

/-- The rows of the first `size` whose cell is not the same as the default. -/
def exceptionRows (default : C) (size : Nat) (cells : List C) : List Nat :=
  (List.range size).filter fun row ↦ !Cell.same (rowCell default cells row) default

/-- The sparse store encodes the first `size` rows of a list against a default. -/
structure SparseStore.Encodes (store : SparseStore S C) (default : C) (size : Nat)
    (cells : List C) : Prop where
  default_eq : store.default = default
  size_eq : store.size = size
  positions_eq : store.positions.toList = exceptionRows default size cells
  exceptions_eq : Store.toList store.exceptions =
    (exceptionRows default size cells).map (rowCell default cells)
  same : ∀ row < size, Cell.same (store.read row) (rowCell default cells row)
  past : ∀ row < size, cells.length ≤ row → store.read row = default
  /-- Walking the positions gives what decoding the deltas gives, and so do the readers. -/
  toList : store.toList = (Deltas.encode default cells).toList size
  toArray : (Layout.sparse store).toArray.toList = (Deltas.encode default cells).toList size
  get? : ∀ row, (Layout.sparse store).get? row = ((Deltas.encode default cells).toList size)[row]?
  /-- So does every fill, whatever it makes of a cell. -/
  fill : ∀ {T : Type} (convert : C → T) (buffer : Array T) (start offset step : Nat), 0 < step →
    start ≤ size → FillsRows size (fun row ↦ convert (store.read row)) buffer start offset step
      (Layout.fillCount size start buffer.size offset step)
      ((Layout.sparse store).fill buffer start offset step convert)
  materialize : Store.Takes store.exceptions default → ∃ dense,
    (Layout.sparse store).materialize = .ok dense ∧
      Store.toList dense = (Deltas.encode default cells).toList size

section Encoding

variable (hsame : ∀ first second : C, Tracked.sameKey first second = Cell.same first second)

include hsame

theorem Tracked.same_refl (cell : C) : Cell.same cell cell :=
  hsame cell cell ▸ Tracked.sameKey_iff.mpr rfl

theorem Tracked.same_symm {first second : C} (h : Cell.same first second) :
    Cell.same second first := by
  rw [← hsame] at h ⊢
  exact Tracked.sameKey_iff.mpr (Tracked.sameKey_iff.mp h).symm

/-- Filling a list up with the default adds no deviation from it. -/
theorem deviations_eq_pickedFrom_padTo (default : C) (size : Nat) (cells : List C) :
    deviations (Cell.same · default) (cells.take size) =
      pickedFrom (fun cell ↦ if Cell.same cell default then none else some cell) 0
        (padTo default size cells) := by
  rw [padTo_eq_append, deviations_eq_pickedFrom, pickedFrom_append]
  refine (List.append_right_eq_self.mpr (List.eq_nil_iff_forall_not_mem.mpr ?_)).symm
  intro entry hentry
  obtain ⟨-, -, cell, hcell, hpick⟩ := of_mem_pickedFrom hentry
  rw [List.eq_of_mem_replicate hcell, if_pos (Tracked.same_refl hsame default)] at hpick
  contradiction

/-- The deviations of a list are its cells in these rows. -/
theorem deviations_take (default : C) (size : Nat) (cells : List C) :
    deviations (Cell.same · default) (cells.take size) =
      (exceptionRows default size cells).map fun row ↦ (row, rowCell default cells row) := by
  have hlength := length_padTo default size cells
  rw [deviations_eq_pickedFrom_padTo hsame, exceptionRows, List.range_eq_range']
  conv => rhs; rw [← hlength]
  refine pickedFrom_eq_map_filter _ _ fun row cell hcell ↦ ?_
  have hrow : row < size := hlength ▸ (List.getElem?_eq_some_iff.mp hcell).1
  rw [getElem?_padTo hrow, Option.some.injEq] at hcell
  rw [Nat.zero_add, hcell]
  cases Cell.same cell default <;> rfl

/-- What is decoded of the deltas, row by row. -/
theorem toList_encode_eq_map (default : C) (size : Nat) (cells : List C) :
    (Deltas.encode default cells).toList size = (List.range size).map fun row ↦
      if Cell.same (rowCell default cells row) default then default
      else rowCell default cells row := by
  have hexceptions : (Deltas.encode default cells).exceptions.toList =
      pickedFrom (fun cell ↦ if Cell.same cell default then none else some cell) 0 cells := by
    rw [← deviations_eq_pickedFrom, Deltas.encode]
    simp only [hsame]
  unfold Deltas.toList
  rw [hexceptions, spread_eq_map_lookup (fun _ _ ↦ Nat.zero_le _) (pairwise_pickedFrom _ _),
    List.range_eq_range']
  refine List.map_congr_left fun row _ ↦ ?_
  have hlookup := @lookup_pickedFrom _ _
    (fun cell ↦ if Cell.same cell default then none else some cell) cells 0 row
  rw [Nat.zero_add] at hlookup
  rw [hlookup, rowCell]
  cases cells[row]? with
  | none => exact (if_pos (Tracked.same_refl hsame default)).symm
  | some cell =>
    rw [Option.bind_some, Option.getD_some]
    split <;> rfl

/-- A store that lists the deviations reads the default in all other rows. -/
theorem read_of_entries {store : SparseStore S C} {default : C} {size row : Nat} {cells : List C}
    (hformed : store.WellFormed) (hdefault : store.default = default)
    (hentries : store.entries = deviations (Cell.same · default) (cells.take size))
    (hrow : row < size) :
    store.read row = if Cell.same (rowCell default cells row) default then default
      else rowCell default cells row := by
  have hlookup := @lookup_pickedFrom _ _
    (fun cell ↦ if Cell.same cell default then none else some cell) (padTo default size cells) 0 row
  rw [Nat.zero_add, getElem?_padTo hrow, Option.bind_some,
    ← deviations_eq_pickedFrom_padTo hsame, ← hentries] at hlookup
  rw [SparseStore.read_eq_lookup hformed.increasing, hlookup, hdefault]
  split <;> rfl

variable [LawfulStore S]

theorem encodes_of_entries {store : SparseStore S C} {default : C} {size : Nat} {cells : List C}
    (hformed : store.WellFormed) (hdefault : store.default = default) (hsize : store.size = size)
    (hentries : store.entries = deviations (Cell.same · default) (cells.take size)) :
    store.Encodes default size cells := by
  have hlayout : (Layout.sparse store).Formed := hformed
  have hread {row : Nat} (hrow : row < size) :=
    read_of_entries hsame hformed hdefault hentries hrow
  have hlist : store.toList = (Deltas.encode default cells).toList size := by
    rw [SparseStore.toList_eq_map_read hformed, toList_encode_eq_map hsame, hsize]
    exact List.map_congr_left fun row hrow ↦ hread (List.mem_range.mp hrow)
  have hrows : (Layout.sparse store).rows = (Deltas.encode default cells).toList size :=
    (Layout.rows_sparse hformed).trans hlist
  rw [deviations_take hsame] at hentries
  refine ⟨hdefault, hsize, ?_, ?_, ?_, ?_, hlist, ?_, ?_, ?_, ?_⟩
  · rw [← SparseStore.map_fst_entries, hentries, List.map_map]
    exact List.map_id _
  · rw [← SparseStore.map_snd_entries hformed, hentries, List.map_map]
    rfl
  · intro row hrow
    rw [hread hrow]
    split
    · next h => exact Tracked.same_symm hsame h
    · exact Tracked.same_refl hsame _
  · intro row hrow hpast
    have hcell : rowCell default cells row = default := by
      rw [rowCell, List.getElem?_eq_none hpast, Option.getD_none]
    rw [hread hrow, hcell, ite_self]
  · exact (Layout.toList_toArray hlayout).trans hrows
  · intro row
    rw [← hrows, Layout.getElem?_rows]
  · intro T convert buffer start offset step hstep hstart
    subst hsize
    exact Layout.fillsRows hlayout hstep hstart
  · intro htakes
    have htaken : Store.Takes store.exceptions store.default := hdefault.symm ▸ htakes
    obtain ⟨dense, hdense, -, hcells⟩ := Layout.exists_materialize hlayout htaken
    exact ⟨dense, hdense, hcells.trans hrows⟩

theorem exists_encodes (prototype : S) (default : C) {size : Nat} {cells : List C}
    (hsize : size ≤ 4294967295) (htakes : ∀ row ∈ exceptionRows default size cells,
      Store.Takes prototype (rowCell default cells row)) :
    ∃ store, SparseStore.ofCells prototype default size cells = .ok store ∧
      store.Encodes default size cells := by
  have hkept := deviations_eq_pickedFrom_padTo hsame default size cells
  have hlength := length_padTo default size cells
  obtain ⟨packed, hcollect, hpack, hformed, hentries⟩ := SparseStore.exists_ofPicked prototype
    default hkept (hlength.symm ▸ hsize) fun entry hentry ↦ by
      rw [deviations_take hsame] at hentry
      obtain ⟨row, hrow, rfl⟩ := List.mem_map.mp hentry
      exact htakes row hrow
  rw [hlength] at hformed hentries
  refine ⟨_, ?_, encodes_of_entries hsame hformed rfl rfl hentries⟩
  unfold SparseStore.ofCells
  simp only [hcollect, Outcome.ok_bind]
  exact SparseStore.ofExceptions_eq_ok_iff.mpr ⟨rfl, hformed⟩

end Encoding

/-! ### The two encoders -/

/-- The encoders over stores like this one, which has a fault for each cell that it does not hold.
Lists have as many cells as a column can have. -/
structure EncodersAgree (prototype : S) (refusal? : C → Option Fault) : Prop where
  same_eq : ∀ first second : C, Tracked.sameKey first second = Cell.same first second
  /-- A builder and `ofCells` make the same store. -/
  written : ∀ (dense : Tracked.Buffer C → Outcome S) (default : C) (cells : List C),
    cells.length ≤ rowLimit → (∀ cell ∈ cells, refusal? cell = none) → ∃ store,
      ColumnBuilder.layoutOf prototype dense (.sparse default cells.length
        (Deltas.encode default cells).exceptions.toList) = .ok (.sparse store) ∧
      SparseStore.ofCells prototype default cells.length cells = .ok store ∧
      store.Encodes default cells.length cells
  /-- Cells past the size are ignored. -/
  surplus : ∀ (default : C) (size : Nat) (cells : List C),
    SparseStore.ofCells prototype default size cells =
      SparseStore.ofCells prototype default size (cells.take size)
  encodes : ∀ (default : C) (size : Nat) (cells : List C), cells.length ≤ rowLimit →
    size ≤ 4294967295 →
    (∀ row ∈ exceptionRows default size cells, refusal? (rowCell default cells row) = none) →
      ∃ store, SparseStore.ofCells prototype default size cells = .ok store ∧
        store.Encodes default size cells
  /-- The first exception that is not held is refused, whatever the size. -/
  refused : ∀ (default : C) (size : Nat) (cells : List C) (fault : Fault),
    cells.length ≤ rowLimit →
    ((exceptionRows default size cells).findSome? fun row ↦
      refusal? (rowCell default cells row)) = some fault →
      SparseStore.ofCells prototype default size cells = .error fault
  formatOverflow_iff : ∀ (default : C) (size : Nat) (cells : List C), cells.length ≤ rowLimit →
    ((∃ format value max, SparseStore.ofCells prototype default size cells =
        .error (.formatOverflow format value max)) ↔
      ∃ row ∈ exceptionRows default size cells, refusal? (rowCell default cells row) ≠ none)
  tooLong : ∀ (default : C) (size : Nat) (cells : List C), cells.length ≤ rowLimit →
    4294967295 < size →
    (∀ row ∈ exceptionRows default size cells, refusal? (rowCell default cells row) = none) →
      SparseStore.ofCells prototype default size cells =
        .error (.invalidArgument "len" "len <= u32::MAX as usize")

section Agreement

variable {prototype : S} {refusal? : C → Option Fault}
  (hsame : ∀ first second : C, Tracked.sameKey first second = Cell.same first second)

include hsame

/-- The builder stores the same cells in the same way. -/
theorem layoutOf_encode (dense : Tracked.Buffer C → Outcome S) (default : C) (cells : List C) :
    ColumnBuilder.layoutOf prototype dense (.sparse default cells.length
      (Deltas.encode default cells).exceptions.toList) =
        Layout.sparse <$> SparseStore.ofCells prototype default cells.length cells := by
  have hkept : (Deltas.encode default cells).exceptions.toList =
      deviations (Cell.same · default) (cells.take cells.length) := by
    rw [List.take_length, Deltas.encode]
    simp only [hsame]
  unfold ColumnBuilder.layoutOf SparseStore.ofCells
  rw [hkept]
  dsimp only
  cases Store.collect prototype (deviations (Cell.same · default) (cells.take cells.length)).length
    ((deviations (Cell.same · default) (cells.take cells.length)).map Prod.snd) with
  | error fault => rfl
  | ok exceptions =>
    rw [Outcome.ok_bind, Outcome.ok_bind]
    cases SparseStore.ofExceptions default cells.length _ exceptions <;> rfl

theorem ofCells_eq (default : C) (size : Nat) (cells : List C) :
    SparseStore.ofCells prototype default size cells =
      (Store.collect prototype (exceptionRows default size cells).length
        ((exceptionRows default size cells).map (rowCell default cells)) >>=
          SparseStore.ofExceptions default size (exceptionRows default size cells)) := by
  have hrows : (deviations (Cell.same · default) (cells.take size)).map Prod.fst =
      exceptionRows default size cells := by
    rw [deviations_take hsame, List.map_map]
    exact List.map_id _
  have hcells : (deviations (Cell.same · default) (cells.take size)).map Prod.snd =
      (exceptionRows default size cells).map (rowCell default cells) := by
    rw [deviations_take hsame, List.map_map]
    rfl
  unfold SparseStore.ofCells
  dsimp only
  rw [hrows, hcells, deviations_take hsame, List.length_map]

omit [Store S C] in
theorem length_exceptionRows_le (default : C) (size : Nat) (cells : List C) :
    (exceptionRows default size cells).length ≤ cells.length := by
  have hlength := congrArg List.length (deviations_take hsame default size cells)
  rw [List.length_map, deviations_eq_pickedFrom] at hlength
  rw [← hlength]
  exact Nat.le_trans (length_pickedFrom_le _ _) (List.length_take_le' _ _)

omit [Store S C] in
theorem length_exceptionRows_le_word {default : C} {size : Nat} {cells : List C}
    (hlength : cells.length ≤ rowLimit) :
    (exceptionRows default size cells).length ≤ 4294967295 :=
  Nat.le_trans (length_exceptionRows_le hsame default size cells)
    (Nat.le_trans hlength (by decide))

variable [LawfulStore S] {default : C} {size : Nat} {cells : List C}

theorem ofCells_of_refused (hlength : cells.length ≤ rowLimit)
    (hrefuses : ∀ (cells : List C) (fault : Fault), cells.findSome? refusal? = some fault →
      Store.pack prototype cells.length cells = .error fault) {fault : Fault}
    (hfault : ((exceptionRows default size cells).findSome? fun row ↦
      refusal? (rowCell default cells row)) = some fault) :
    SparseStore.ofCells prototype default size cells = .error fault := by
  have hpack := hrefuses ((exceptionRows default size cells).map (rowCell default cells)) fault
    (List.findSome?_map.trans hfault)
  rw [List.length_map] at hpack
  have hroom : (exceptionRows default size cells).length ≤ Store.sizeLimit prototype :=
    Nat.le_trans (length_exceptionRows_le_word hsame hlength) (LawfulStore.le_sizeLimit prototype)
  rw [ofCells_eq hsame, Store.collect, Word.requireRoom_eq_ok_iff.mpr hroom, Outcome.ok_bind,
    hpack, Outcome.error_bind]

theorem ofCells_of_too_long (hlength : cells.length ≤ rowLimit) (hsize : 4294967295 < size)
    (htakes : ∀ row ∈ exceptionRows default size cells,
      Store.Takes prototype (rowCell default cells row)) :
    SparseStore.ofCells prototype default size cells =
      .error (.invalidArgument "len" "len <= u32::MAX as usize") := by
  obtain ⟨packed, hcollect, -⟩ := Store.exists_collect prototype
    (length_exceptionRows_le_word hsame hlength) fun cell hcell ↦ by
      obtain ⟨row, hrow, rfl⟩ := List.mem_map.mp hcell
      exact htakes row hrow
  rw [ofCells_eq hsame, hcollect, Outcome.ok_bind, SparseStore.ofExceptions, Fault.require,
    decide_eq_false (Nat.not_le.mpr hsize)]
  rfl

/-- Where every exception is held, no overflow is reported. -/
theorem ofCells_ne_formatOverflow (hlength : cells.length ≤ rowLimit)
    (htakes : ∀ row ∈ exceptionRows default size cells,
      Store.Takes prototype (rowCell default cells row)) (format : String) (value max : Nat) :
    SparseStore.ofCells prototype default size cells ≠
      .error (.formatOverflow format value max) := by
  rcases Nat.lt_or_ge 4294967295 size with hlong | hsize
  · rw [ofCells_of_too_long hsame hlength hlong htakes]
    nofun
  · obtain ⟨store, hstore, -⟩ := exists_encodes hsame prototype default hsize htakes
    rw [hstore]
    nofun

/-- Over a store that packs exactly the cells that it has no fault for, the encoders agree. -/
theorem encodersAgree (htakes : ∀ cell, refusal? cell = none → Store.Takes prototype cell)
    (hrefuses : ∀ (cells : List C) (fault : Fault), cells.findSome? refusal? = some fault →
      Store.pack prototype cells.length cells = .error fault)
    (hoverflow : ∀ cell fault, refusal? cell = some fault →
      ∃ format value max, fault = .formatOverflow format value max) :
    EncodersAgree prototype refusal? := by
  have hheld {default : C} {size : Nat} {cells : List C}
      (hnone : ∀ row ∈ exceptionRows default size cells,
        refusal? (rowCell default cells row) = none) :
      ∀ row ∈ exceptionRows default size cells, Store.Takes prototype (rowCell default cells row) :=
    fun row hrow ↦ htakes _ (hnone row hrow)
  refine ⟨hsame, ?_, ?_, ?_, ?_, ?_, ?_⟩
  · intro dense default cells hlength hnone
    obtain ⟨store, hstore, hencodes⟩ := exists_encodes hsame prototype default
      (Nat.le_trans hlength (by decide)) fun row hrow ↦ by
        have hlt := List.mem_range.mp (List.mem_filter.mp hrow).1
        rw [rowCell, List.getElem?_eq_getElem hlt]
        exact htakes _ (hnone _ (List.getElem_mem hlt))
    refine ⟨store, ?_, hstore, hencodes⟩
    rw [layoutOf_encode hsame, hstore]
    rfl
  · intro default size cells
    unfold SparseStore.ofCells
    rw [List.take_take, Nat.min_self]
  · intro default size cells _ hsize hnone
    exact exists_encodes hsame prototype default hsize (hheld hnone)
  · intro default size cells fault hlength hfault
    exact ofCells_of_refused hsame hlength hrefuses hfault
  · intro default size cells hlength
    cases hfault : (exceptionRows default size cells).findSome? fun row ↦
        refusal? (rowCell default cells row) with
    | none =>
      have hnone := List.findSome?_eq_none_iff.mp hfault
      refine iff_of_false ?_ fun ⟨row, hrow, hrefusal⟩ ↦ hrefusal (hnone row hrow)
      rintro ⟨format, value, max, herror⟩
      exact ofCells_ne_formatOverflow hsame hlength (hheld hnone) format value max herror
    | some fault =>
      obtain ⟨row, hrow, hrefusal⟩ := List.exists_of_findSome?_eq_some hfault
      obtain ⟨format, value, max, rfl⟩ := hoverflow _ fault hrefusal
      exact iff_of_true ⟨format, value, max, ofCells_of_refused hsame hlength hrefuses hfault⟩
        ⟨row, hrow, by rw [hrefusal]; nofun⟩
  · intro default size cells hlength hsize hnone
    exact ofCells_of_too_long hsame hlength hsize (hheld hnone)

end Agreement

/-! ### Each kind of cell -/

/-- Keys tell apart what storage tells apart: zeros by their sign, and a NaN from all numbers but
not from another NaN. -/
theorem Binary64.sameKey_eq (first second : Binary64) :
    Tracked.sameKey first second = Cell.same first second := by
  show (first.key == second.key) = (first.bits == second.bits || (first.isNaN && second.isNaN))
  rw [Bool.eq_iff_iff, beq_iff_eq, Bool.or_eq_true, Bool.and_eq_true, beq_iff_eq]
  constructor
  · intro hkey
    rcases Binary64.eq_or_isNaN_of_key_eq hkey with rfl | hnan
    · exact .inl rfl
    · exact .inr hnan
  · rintro (hbits | ⟨hfirst, hsecond⟩)
    · obtain ⟨bits⟩ := first
      obtain rfl : bits = second.bits := hbits
      rfl
    · rw [Binary64.key, Binary64.key, if_pos hfirst, if_pos hsecond]

theorem Instant.sameKey_eq (first second : Option Instant) :
    Tracked.sameKey first second = Cell.same first second := by
  rw [Bool.eq_iff_iff, Tracked.sameKey_iff]
  show first = second ↔ (first == second) = true
  rw [beq_iff_eq]

/-- A store that packs every list has no fault for any cell. -/
theorem encodersAgree_of_takes [LawfulStore S] (prototype : S)
    (hsame : ∀ first second : C, Tracked.sameKey first second = Cell.same first second)
    (htakes : ∀ cell : C, Store.Takes prototype cell) :
    EncodersAgree prototype fun _ ↦ none :=
  encodersAgree hsame (fun cell _ ↦ htakes cell)
    (fun cells fault h ↦ by
      obtain ⟨cell, -, hfault⟩ := List.exists_of_findSome?_eq_some h
      cases hfault)
    (fun cell fault h ↦ by cases h)

namespace IndexArray

theorem encodersAgree (prototype : IndexArray) : EncodersAgree prototype prototype.refusal? :=
  Columnar.encodersAgree (fun _ _ ↦ rfl)
    (fun _ h ↦ takes_iff.mpr (refusal?_eq_none_iff.mp h))
    (fun _ _ h ↦ pack_of_findSome? (by rwa [List.take_length]))
    (fun _ _ h ↦ ⟨_, _, _, (refusal?_eq_some_iff.mp h).2.symm⟩)

end IndexArray

/-- Numbers, times of day and instants are encoded alike by both encoders whatever they are, and
indices as far as the prototype's format holds the exceptions among them. -/
theorem encoders_agree :
    (∀ prototype : NumberStore, EncodersAgree prototype fun _ ↦ none) ∧
    (∀ prototype : TimeStore, EncodersAgree prototype fun _ ↦ none) ∧
    (∀ prototype : InstantStore, EncodersAgree prototype fun _ ↦ none) ∧
    ∀ prototype : IndexArray, EncodersAgree prototype fun index ↦
      if prototype.format.fits index then none else some (prototype.format.overflow index) :=
  ⟨fun prototype ↦ encodersAgree_of_takes prototype Binary64.sameKey_eq fun _ ↦ ⟨_, rfl⟩,
    fun prototype ↦ encodersAgree_of_takes prototype (fun _ _ ↦ rfl) fun _ ↦ ⟨_, rfl⟩,
    fun prototype ↦ encodersAgree_of_takes prototype Instant.sameKey_eq fun _ ↦ ⟨_, rfl⟩,
    IndexArray.encodersAgree⟩

/-- An exception that two bits do not hold is refused, unless it lies past the size. -/
theorem encoders_agree_two_bits :
    SparseStore.ofCells (IndexArray.empty .uint2) 0 3 [0, 3, 9] =
        .error (IndexFormat.uint2.overflow 9) ∧
      ∃ store, SparseStore.ofCells (IndexArray.empty .uint2) 0 2 [0, 3, 9] = .ok store ∧
        store.Encodes 0 2 [0, 3, 9] :=
  have h := encoders_agree.2.2.2 (IndexArray.empty .uint2)
  ⟨h.refused 0 3 [0, 3, 9] _ (by decide) (by decide),
    h.encodes 0 2 [0, 3, 9] (by decide) (by decide) (by decide)⟩

/-- A list is not filled up to a size that takes more than 32 bits. -/
theorem not_ofCells_beyond_word :
    ¬∃ store, SparseStore.ofCells (NumberStore.mk #[]) .zero 4294967296 [] = .ok store ∧
      ∀ row < 4294967296, store.read row = .zero := by
  rintro ⟨store, hstore, -⟩
  have hrefused : SparseStore.ofCells (NumberStore.mk #[]) .zero 4294967296 [] =
      .error (.invalidArgument "len" "len <= u32::MAX as usize") := rfl
  rw [hrefused] at hstore
  contradiction

end Columnar
