import Columnar.Proofs.Dictionary.Bijection
import Columnar.Proofs.Ingest.Columns
import Columnar.Proofs.Ingest.Refusals

/-!
# Widening as needed

A widening buffer is always in the narrowest format of the indices that it took: the formats that
hold all of them are exactly those at least as wide (`HoldsNarrowly`). One push keeps this, and only
an index beyond the widest format is refused (`HoldsNarrowly.push`), so by induction it is true
after any pushes (`HoldsNarrowly.takeAll`).

A nominal builder pushes indices of its own dictionary (`Indexed`), whatever becomes of the values
that it is given. The format of the dictionary holds all of them, so no buffer is wider than that
format, and when the builder is finished the buffer can be widened to it
(`Indexed.finishesInFormat`).
-/

set_option autoImplicit false
set_option relaxedAutoImplicit false

namespace Columnar

/-! ### The narrowest format -/

namespace IndexFormat

variable {format other : IndexFormat} {index : Nat}

theorem eq_of_bits_eq (h : format.bits = other.bits) : format = other := by
  revert h
  cases format <;> cases other <;> decide

/-- The formats that hold an index are those at least as wide as the narrowest of them. -/
theorem narrowest?_eq_some_iff :
    narrowest? index = some format ↔ ∀ other : IndexFormat,
      other.fits index ↔ format.bits ≤ other.bits := by
  constructor
  · intro h other
    exact ⟨bits_le_of_narrowest? h, fun hbits ↦ fits_of_bits_le hbits (fits_of_narrowest? h)⟩
  · intro h
    have hfits : format.fits index := (h format).mpr (Nat.le_refl _)
    obtain ⟨other, hother, hindex⟩ := exists_narrowest? (fits_int32 hfits)
    have hbits : format.bits = other.bits :=
      Nat.le_antisymm ((h other).mp hindex) (bits_le_of_narrowest? hother hfits)
    rw [hother, eq_of_bits_eq hbits]

/-- A dictionary has the narrowest format for its last index. -/
theorem ofDictionarySize_eq_ok_iff {dictionary : Dictionary} :
    ofDictionarySize dictionary.size = .ok format ↔
      narrowest? dictionary.maxIndex = some format := by
  have hsize : ofDictionarySize? dictionary.size = narrowest? dictionary.maxIndex := rfl
  unfold ofDictionarySize
  rw [hsize]
  cases narrowest? dictionary.maxIndex <;> simp

end IndexFormat

/-! ### Buffers -/

namespace IndexArray

/-- The array holds these indices, in a format no wider than any other that could. -/
structure HoldsNarrowly (array : IndexArray) (indices : List Nat) : Prop where
  toList_eq : array.toList = indices
  fits_iff : ∀ format : IndexFormat, (∀ index ∈ indices, format.fits index) ↔
    array.format.bits ≤ format.bits

/-- What comes of pushing these indices onto an empty buffer, the answers to them included: those
that the widest format holds are taken, in order and in the narrowest format for the largest of
them, and the others are refused. -/
structure WidensAsNeeded (indices : List Nat) (answers : List (Outcome Unit))
    (buffer : IndexArray) : Prop where
  answers_eq : answers = indices.map fun index ↦
    if index ≤ 2147483647 then .ok () else .error (.formatOverflow "INT32" index 2147483647)
  toList_eq : buffer.toList = indices.filter (· ≤ 2147483647)
  narrowest : ∀ largest, buffer.toList.max? = some largest →
    IndexFormat.narrowest? largest = some buffer.format
  of_nil : buffer.toList = [] → buffer.format = .uint2
  /-- No format that is narrower holds them. -/
  least : ∀ format : IndexFormat, (∀ index ∈ buffer.toList, index ≤ format.maxIndex) ↔
    buffer.format.bits ≤ format.bits
  refused_iff : ∀ index, (∃ fault next, buffer.pushWidening index = .refused fault next) ↔
    2147483647 < index
  of_refused : ∀ index fault next, buffer.pushWidening index = .refused fault next →
    fault = .formatOverflow "INT32" index 2147483647 ∧ next = buffer

variable {array : IndexArray} {indices : List Nat} {index : Nat}

theorem holdsNarrowly_empty : (empty .uint2).HoldsNarrowly [] := by
  refine ⟨toList_zeros .uint2 0, fun format ↦ ⟨fun _ ↦ ?_, fun _ ↦ nofun⟩⟩
  cases format <;> decide

/-- A push of an index that some format holds adds it, and widens the buffer no further than
needed. -/
theorem HoldsNarrowly.push (h : array.HoldsNarrowly indices) (hindex : index ≤ 2147483647) :
    ∃ next, array.pushWidening index = .done () next ∧ next.HoldsNarrowly (indices ++ [index]) := by
  have hcontents {next : IndexArray} (hpush : array.pushWidening index = .done () next) :
      next.toList = indices ++ [index] := by
    rw [← h.toList_eq]
    exact LawfulTracked.contents_append (C := Nat) hpush
  rcases pushWidening_cases array (IndexFormat.fits_iff.mpr hindex) with
    ⟨hfits, hpush⟩ | ⟨format, hfits, hformat, hnew, hpush⟩
  · refine ⟨_, hpush, hcontents hpush, fun other ↦ ?_⟩
    rw [List.forall_mem_append, List.forall_mem_singleton, h.fits_iff, format_append]
    exact and_iff_left_of_imp fun hbits ↦ IndexFormat.fits_of_bits_le hbits hfits
  · refine ⟨_, hpush, hcontents hpush, fun other ↦ ?_⟩
    rw [List.forall_mem_append, List.forall_mem_singleton, format_append, format_recode,
      IndexFormat.narrowest?_eq_some_iff.mp hformat]
    refine and_iff_right_of_imp fun hbits old hold ↦ ?_
    -- The new index exceeds the bound that the old ones keep.
    have hle : old ≤ array.format.maxIndex :=
      IndexFormat.fits_iff.mp (fits_of_mem (h.toList_eq ▸ hold))
    have hlt : array.format.maxIndex < index := Nat.not_le.mp fun hle ↦
      hfits (IndexFormat.fits_iff.mpr hle)
    exact IndexFormat.fits_of_le (IndexFormat.fits_of_bits_le hbits hnew) (by omega)

/-- Pushing any indices one after the other adds those that some format holds. -/
theorem HoldsNarrowly.takeAll (h : array.HoldsNarrowly indices) (pushed : List Nat) :
    (Attempt.takeAll pushWidening array pushed).1 = pushed.map (fun index ↦
      if index ≤ 2147483647 then .ok () else .error (.formatOverflow "INT32" index 2147483647)) ∧
    (Attempt.takeAll pushWidening array pushed).2.HoldsNarrowly
      (indices ++ pushed.filter (· ≤ 2147483647)) := by
  induction pushed generalizing array indices with
  | nil =>
    rw [List.filter_nil, List.append_nil]
    exact ⟨rfl, h⟩
  | cons index rest ih =>
    simp only [Attempt.takeAll, List.map_cons]
    by_cases hindex : index ≤ 2147483647
    · obtain ⟨next, hpush, hnext⟩ := h.push hindex
      obtain ⟨hanswers, hlast⟩ := ih hnext
      rw [hpush, if_pos hindex, List.filter_cons_of_pos (by simpa using hindex), List.append_cons]
      exact ⟨congrArg (Except.ok () :: ·) hanswers, hlast⟩
    · obtain ⟨hanswers, hlast⟩ := ih h
      rw [pushWidening_of_lt array (Nat.not_le.mp hindex), if_neg hindex,
        List.filter_cons_of_neg (by simpa using hindex)]
      exact ⟨congrArg (Except.error _ :: ·) hanswers, hlast⟩

/-- A buffer in the narrowest format refuses just the indices that no format holds, and keeps what
it has. -/
theorem HoldsNarrowly.refusal (h : array.HoldsNarrowly indices) {fault : Fault} {next : IndexArray}
    (hpush : array.pushWidening index = .refused fault next) :
    2147483647 < index ∧ fault = .formatOverflow "INT32" index 2147483647 ∧ next = array := by
  by_cases hindex : index ≤ 2147483647
  · obtain ⟨grown, hdone, -⟩ := h.push hindex
    rw [hdone] at hpush
    contradiction
  · have hlt := Nat.not_le.mp hindex
    rw [pushWidening_of_lt array hlt] at hpush
    cases hpush
    exact ⟨hlt, rfl, rfl⟩

/-- The narrowest format of an empty buffer is the first one, and otherwise that of the largest
index. -/
theorem HoldsNarrowly.narrowest (h : array.HoldsNarrowly indices) {largest : Nat}
    (hlargest : indices.max? = some largest) :
    IndexFormat.narrowest? largest = some array.format := by
  obtain ⟨hmem, hall⟩ := List.max?_eq_some_iff.mp hlargest
  refine IndexFormat.narrowest?_eq_some_iff.mpr fun format ↦ ?_
  rw [← h.fits_iff]
  exact ⟨fun hfit index hindex ↦ IndexFormat.fits_of_le hfit (hall index hindex),
    fun hfits ↦ hfits largest hmem⟩

theorem HoldsNarrowly.format_of_nil (h : array.HoldsNarrowly []) : array.format = .uint2 := by
  have hbits := (h.fits_iff .uint2).mp nofun
  revert hbits
  cases array.format <;> decide

/-- A buffer made with any room, and whatever is pushed onto it, widens as needed. -/
theorem widensAsNeeded_of_withCapacity {capacity : Nat} {start : IndexArray}
    (hstart : Tracked.withCapacity (C := Nat) capacity = .ok start) (pushed : List Nat) :
    WidensAsNeeded pushed (Attempt.takeAll pushWidening start pushed).1
      (Attempt.takeAll pushWidening start pushed).2 := by
  have hempty : start = empty .uint2 := by
    unfold Tracked.withCapacity at hstart
    obtain ⟨-, -, hempty⟩ := Outcome.bind_eq_ok_iff.mp hstart
    exact (Except.ok.inj hempty).symm
  rw [hempty]
  obtain ⟨hanswers, hheld⟩ := holdsNarrowly_empty.takeAll pushed
  constructor
  case answers_eq => exact hanswers
  case toList_eq => exact hheld.toList_eq
  case narrowest => exact fun _ hlargest ↦ hheld.narrowest (hheld.toList_eq ▸ hlargest)
  case of_nil =>
    intro hnil
    rw [← hheld.toList_eq, hnil] at hheld
    exact hheld.format_of_nil
  case least =>
    rw [hheld.toList_eq]
    simpa only [IndexFormat.fits_iff] using hheld.fits_iff
  case refused_iff =>
    intro index
    constructor
    · rintro ⟨fault, next, hpush⟩
      exact (hheld.refusal hpush).1
    · intro hlt
      exact ⟨_, _, pushWidening_of_lt _ hlt⟩
  case of_refused => exact fun _ _ _ hpush ↦ (hheld.refusal hpush).2

end IndexArray

/-! ### Nominal builders -/

/-- Entering a value is refused and changes nothing, or it answers with an index of the dictionary,
which has not shrunk and not outgrown the widest format. -/
theorem Column.indexOf_cases {dictionary : Dictionary} (hmax : dictionary.maxIndex ≤ 2147483647)
    (value : Value) :
    (∃ fault, indexOf dictionary value = .refused fault dictionary) ∨
      ∃ index next, indexOf dictionary value = .done index next ∧
        dictionary.maxIndex ≤ next.maxIndex ∧ index ≤ next.maxIndex ∧
        next.maxIndex ≤ 2147483647 := by
  by_cases hroom : dictionary.size ≤ IndexFormat.int32.maxIndex
  · obtain ⟨index, next, hindex, hextends, hsize, hle, -⟩ := exists_indexOf value hroom
    exact .inr ⟨index, next, hindex, hextends.size_le, hle, Nat.le_trans hsize hroom⟩
  · cases value with
    | text text =>
      have hfits : IndexFormat.int32.fits dictionary.size = false :=
        Bool.eq_false_iff.mpr fun hfits ↦ hroom (IndexFormat.fits_iff.mp hfits)
      simp only [indexOf, Dictionary.intern, hfits, Bool.or_false]
      split
      · next hcontains =>
        -- A full dictionary still knows the texts that it has.
        obtain ⟨position, hposition⟩ :=
          Option.isSome_iff_exists.mp (Std.HashMap.isSome_getElem?_eq_contains.trans hcontains)
        have hfound : dictionary.indexOf? text = some (position + 1) := by
          rw [Dictionary.indexOf?, hposition, Option.map_some]
        rw [Dictionary.enter_of_present hfound]
        exact .inr ⟨_, _, rfl, Nat.le_refl _,
          Dictionary.le_maxIndex_of_get? (Dictionary.indexOf?_iff.mp hfound), hmax⟩
      · exact .inl ⟨_, rfl⟩
    | _ => exact .inr ⟨0, dictionary, rfl, Nat.le_refl _, Nat.zero_le _, hmax⟩

namespace ColumnBuilder

/-- The cells of a nominal builder are indices of its dictionary. -/
structure Indexed (options : IngestOptions) (dictionary : Dictionary) (cells : Accumulator Nat)
    (indices : List Nat) : Prop where
  reached : cells.Reached (· ≤ 2147483647) options indices
  le_maxIndex : ∀ index ∈ indices, index ≤ dictionary.maxIndex
  maxIndex_le : dictionary.maxIndex ≤ 2147483647

/-- The format of the dictionary is wide enough for every buffer in use, and whatever is handed over
when the builder is finished is brought into it. -/
structure FinishesInFormat (dictionary : Dictionary) (cells : Accumulator Nat)
    (format : IndexFormat) : Prop where
  format_eq : IndexFormat.ofDictionarySize dictionary.size = .ok format
  narrowest : IndexFormat.narrowest? dictionary.maxIndex = some format
  bits_le : ∀ buffer, cells.storage = .dense buffer ∨ cells.storage = .reverted buffer →
    buffer.format.bits ≤ format.bits
  handed_over : ∀ final valueBytes, ∃ accumulated, cells.finish final valueBytes = .ok accumulated ∧
    ∀ buffer, accumulated = .dense buffer → buffer.format.bits ≤ format.bits ∧
      ∃ array, buffer.widen format = .ok array ∧ array.format = format ∧
        array.toList = cells.toList
  finishes : ∀ final fresh, ∃ layout, (categories dictionary cells).finish final fresh =
    .ok ⟨.nominal, .categories layout ⟨fresh, dictionary⟩⟩ ∧ layout.prototype.format = format

variable {options : IngestOptions} {dictionary : Dictionary} {cells : Accumulator Nat}
  {indices : List Nat}

theorem Indexed.mono {next : Dictionary} (h : Indexed options dictionary cells indices)
    (hle : dictionary.maxIndex ≤ next.maxIndex) (hmax : next.maxIndex ≤ 2147483647) :
    Indexed options next cells indices :=
  ⟨h.reached, fun index hindex ↦ Nat.le_trans (h.le_maxIndex index hindex) hle, hmax⟩

theorem exists_indexed_of_ofType {start : ColumnBuilder}
    (h : ofType .nominal options = .ok start) :
    ∃ cells, start = categories .empty cells ∧ Indexed options .empty cells [] := by
  obtain ⟨cells, hcells, hstart⟩ := Outcome.bind_eq_ok_iff.mp h
  cases hstart
  exact ⟨cells, rfl, Accumulator.reached_ofOptions Tracked.stores_index hcells, nofun,
    Nat.zero_le _⟩

/-- Pushing a value, whether it is taken or not, leaves a nominal builder with indices of its
dictionary. -/
theorem Indexed.push (h : Indexed options dictionary cells indices) (value : Value) :
    ∃ next stored held, ((categories dictionary cells).push value).state =
      categories next stored ∧ Indexed options next stored held := by
  by_cases haccepts : ColumnType.nominal.accepts value
  · rw [push_eq_of_accepts (categories dictionary cells) haccepts]
    simp only [pushCategory]
    rcases Column.indexOf_cases h.maxIndex_le value with
      ⟨fault, hrefused⟩ | ⟨index, next, hdone, hgrown, hindex, hmax⟩
    · rw [hrefused]
      exact ⟨_, _, _, rfl, h⟩
    · have hnext := h.mono hgrown hmax
      simp only [hdone]
      cases IndexFormat.ofDictionarySize next.size with
      | error fault => exact ⟨_, _, _, rfl, hnext⟩
      | ok format =>
        refine ⟨next, (cells.push index format.valueBytes).state, ?_⟩
        rcases h.reached.held_cases index format.valueBytes with hheld | hheld
        · exact ⟨_, Attempt.state_within _ _, hheld, hnext.le_maxIndex, hmax⟩
        · exact ⟨_, Attempt.state_within _ _, hheld,
            List.forall_mem_append.mpr ⟨hnext.le_maxIndex, List.forall_mem_singleton.mpr hindex⟩,
            hmax⟩
  · obtain ⟨reason, hpush⟩ := push_of_not_accepts (categories dictionary cells) haccepts
    rw [hpush]
    exact ⟨_, _, _, rfl, h⟩

theorem Indexed.pushAll (h : Indexed options dictionary cells indices) (values : List Value) :
    ∃ next stored held, (categories dictionary cells).pushAll values = categories next stored ∧
      Indexed options next stored held := by
  induction values generalizing dictionary cells indices with
  | nil => exact ⟨_, _, _, rfl, h⟩
  | cons value rest ih =>
    obtain ⟨next, stored, held, hpush, hnext⟩ := h.push value
    rw [pushAll_cons, hpush]
    exact ih hnext

/-- Cells that are indices of the dictionary end in its format. -/
theorem Indexed.finishesInFormat (h : Indexed options dictionary cells indices) :
    ∃ format, FinishesInFormat dictionary cells format := by
  obtain ⟨format, hnarrowest, hfits⟩ :=
    IndexFormat.exists_narrowest? (IndexFormat.fits_iff.mpr h.maxIndex_le)
  have hformat := IndexFormat.ofDictionarySize_eq_ok_iff.mpr hnarrowest
  have hindices : ∀ index ∈ indices, format.fits index := fun index hindex ↦
    IndexFormat.fits_of_le hfits (h.le_maxIndex index hindex)
  have haccepts : ∀ index ∈ indices, Tracked.Accepts index := fun index hindex ↦
    Tracked.stores_index.accepts (Nat.le_trans (h.le_maxIndex index hindex) h.maxIndex_le)
  have hstorable := storable_indices haccepts hindices
  have hlist : cells.toList = indices := eq_of_map_id h.reached.map_key_toList
  refine ⟨format, ?_⟩
  constructor
  case format_eq => exact hformat
  case narrowest => exact hnarrowest
  case bits_le =>
    have hkeeps := h.reached.keeps
    intro buffer hbuffer
    rcases hbuffer with hbuffer | hbuffer
    · rw [hbuffer] at hkeeps
      cases hkeeps
      exact Tracked.bits_appendAll_le hindices
    · rw [hbuffer] at hkeeps
      cases hkeeps with
      | reverted hkeys =>
        rw [eq_of_map_id hkeys]
        exact Tracked.bits_appendAll_le hindices
  case handed_over =>
    intro final valueBytes
    obtain ⟨accumulated, hfinish, hholds⟩ := Accumulator.exists_finish h.reached.toHolds haccepts
      h.reached.length_le final valueBytes
    refine ⟨accumulated, hfinish, ?_⟩
    rintro buffer rfl
    cases hholds with
    | dense hkeys =>
      obtain ⟨array, hwiden, harray, hkind⟩ := hstorable.exists_dense _ hkeys
      rw [IndexArray.toList_eq] at harray
      rw [eq_of_map_id hkeys] at hwiden harray ⊢
      exact ⟨Tracked.bits_appendAll_le hindices, array, hwiden, hkind, harray.trans hlist.symm⟩
  case finishes =>
    intro final fresh
    obtain ⟨accumulated, layout, hfinish, hlayout, hkeeps, hkind⟩ := exists_layout
      h.reached.toHolds haccepts h.reached.length_le hstorable final format.valueBytes
    have hvalid : (ColumnData.categories layout ⟨fresh, dictionary⟩).Valid .nominal :=
      ColumnData.valid_categories hformat h.le_maxIndex hkeeps hkind
    refine ⟨layout, ?_, hkind⟩
    simp only [finish, hformat, hfinish, Outcome.ok_bind]
    exact Outcome.bind_eq_ok_iff.mpr ⟨layout, hlayout, Column.ofData_of_valid hvalid⟩

end ColumnBuilder

end Columnar
