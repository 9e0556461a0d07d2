import Columnar.Proofs.Column.Counting
import Columnar.Proofs.Column.Reaching
import Columnar.Proofs.Dictionary.Uniting

/-!
# Reconciling the dictionaries of columns

A nominal column can be restated for every dictionary that its own is reconciled to: reordered,
united with another one from either side, or compacted to what the rows use
(`Reachable.reconciles`). The restated column has the same size and the same kind of layout, and
every row reads the value that it read before. Only the widest format of indices sets a bound: a
dictionary with no room to spare cannot be reordered, and a union that no format holds is refused
(`exists_reconciling_refused`). What is left after compacting is all in use, so compacting again
changes nothing.
-/

set_option autoImplicit false
set_option relaxedAutoImplicit false

namespace Columnar

/-- The used indices of a count are those that occur. -/
theorem Dictionary.used_indexCounts_iff {size index : Nat} {indices : List Nat} :
    Used (indexCounts size indices).toList index ↔ index < size ∧ index ∈ indices := by
  unfold Used
  rw [Array.getElem?_toList, getElem?_indexCounts]
  by_cases hindex : index < size
  · simp [hindex, List.count_pos_iff]
  · simp [hindex]

namespace Column

/-- The same rows for this dictionary. -/
structure Restates (derived column : Column) (dictionary : Shared Dictionary) : Prop where
  reachable : derived.Reachable
  type_eq : derived.type = column.type
  dictionary_eq : derived.dictionary? = some dictionary
  size_eq : derived.size = column.size
  arrangement_eq : derived.arrangement = column.arrangement
  get : ∀ row, derived.get row = column.get row

/-- The column can be restated for the dictionary, unless no format holds that one. -/
structure RestatesFor (column : Column) (dictionary : Shared Dictionary)
    (renumbering : Renumbering) : Prop where
  exists_restates : dictionary.value.maxIndex ≤ IndexFormat.int32.maxIndex →
    ∃ derived, column.withDictionary dictionary renumbering = .ok derived ∧
      derived.Restates column dictionary
  refused : IndexFormat.int32.maxIndex < dictionary.value.maxIndex →
    column.withDictionary dictionary renumbering =
      .error (IndexFormat.int32.overflow dictionary.value.maxIndex)

section

variable {type : ColumnType} {layout : Layout IndexArray Nat}
  {current dictionary : Shared Dictionary} {renumbering : Renumbering}

/-- A renumbering that carries the indices of the rows restates the column. -/
theorem exists_restates (h : Reachable ⟨type, .categories layout current⟩)
    (hcarries : renumbering.Carries current.value dictionary.value (· ∈ layout.rows))
    (hroom : dictionary.value.maxIndex ≤ IndexFormat.int32.maxIndex) :
    ∃ derived, withDictionary ⟨type, .categories layout current⟩ dictionary renumbering =
        .ok ⟨type, .categories derived dictionary⟩ ∧
      derived.rows = layout.rows.map renumbering.target ∧
      Restates ⟨type, .categories derived dictionary⟩ ⟨type, .categories layout current⟩
        dictionary := by
  have hfits : IndexFormat.int32.fits (dictionary.value.size - 1) :=
    IndexFormat.fits_iff.mpr hroom
  obtain ⟨format, hformat⟩ := IndexFormat.exists_ofDictionarySize hfits
  obtain ⟨derived, hderived, hrenumbers, -⟩ :=
    exists_withDictionary h.valid hcarries.covers hcarries.within hformat
  have hread := hrenumbers.read hcarries.zero
  refine ⟨derived, hderived, ?_, h.withDictionary hderived, rfl, rfl, hrenumbers.size_eq,
    hrenumbers.arrangement_eq, fun row ↦ ?_⟩
  · unfold Layout.rows
    rw [hrenumbers.size_eq, List.map_map]
    exact List.map_congr_left fun row _ ↦ hread row
  · rw [get_eq, get_eq, show Column.size ⟨type, .categories derived dictionary⟩ =
      Column.size ⟨type, .categories layout current⟩ from hrenumbers.size_eq]
    split
    · rfl
    · next hrow =>
      have hmem : layout.read row ∈ layout.rows :=
        Layout.mem_rows_iff.mpr ⟨row, Nat.not_le.mp hrow, rfl⟩
      have htext := hcarries.text _ (Nat.le_of_lt_succ (read_lt_size h.valid row)) hmem
      have hvalue : categoryValue dictionary.value (derived.read row) =
          categoryValue current.value (layout.read row) := by
        unfold categoryValue
        rw [hread, htext]
      exact congrArg Except.ok hvalue

/-- A renumbering that carries the whole dictionary restates the column, unless no format holds the
other dictionary. -/
theorem restatesFor_of_carries (h : Reachable ⟨type, .categories layout current⟩)
    (hcarries : renumbering.Carries current.value dictionary.value fun _ ↦ True) :
    RestatesFor ⟨type, .categories layout current⟩ dictionary renumbering := by
  constructor
  · intro hroom
    obtain ⟨derived, hderived, -, hrestates⟩ :=
      exists_restates h (hcarries.mono fun _ _ ↦ trivial) hroom
    exact ⟨_, hderived, hrestates⟩
  · intro hfull
    have hfits : ¬IndexFormat.int32.fits (dictionary.value.size - 1) := fun hfits ↦
      Nat.not_le.mpr hfull (IndexFormat.fits_iff.mp hfits)
    have hformat := IndexFormat.ofDictionarySize_of_not_fits hfits
    unfold withDictionary Fault.require
    simp only [hcarries.covers, hcarries.within, decide_true, if_true, hformat, Outcome.ok_bind]
    rfl

/-- Compacting by the usage of a column restates it, and every index that is left is read. -/
theorem exists_restates_compact (h : Reachable ⟨type, .categories layout current⟩)
    (fresh : Token) :
    ∃ compacted renumbering derived,
      Dictionary.compact current (indexCounts current.value.size layout.rows).toList fresh =
        .ok (compacted, renumbering) ∧
      withDictionary ⟨type, .categories layout current⟩ compacted renumbering =
        .ok ⟨type, .categories derived compacted⟩ ∧
      Restates ⟨type, .categories derived compacted⟩ ⟨type, .categories layout current⟩
        compacted ∧
      ∀ index, 0 < index → index < compacted.value.size → index ∈ derived.rows := by
  have hroom : current.value.maxIndex ≤ IndexFormat.int32.maxIndex :=
    IndexFormat.fits_iff.mp (IndexFormat.fits_int32 h.valid.stores.1)
  have hlength : (indexCounts current.value.size layout.rows).toList.length =
      current.value.size := by simp [indexCounts]
  obtain ⟨compacted, renumbering, hcompact, hsmaller, hcarries, hsources⟩ :=
    Dictionary.exists_compact hlength hroom fresh
  have hused : ∀ index ∈ layout.rows,
      Dictionary.Used (indexCounts current.value.size layout.rows).toList index := by
    intro index hindex
    obtain ⟨row, -, rfl⟩ := Layout.mem_rows_iff.mp hindex
    exact Dictionary.used_indexCounts_iff.mpr ⟨read_lt_size h.valid row, hindex⟩
  obtain ⟨derived, hderived, hrows, hrestates⟩ :=
    exists_restates h (hcarries.mono hused) (Nat.le_trans hsmaller hroom)
  refine ⟨compacted, renumbering, derived, hcompact, hderived, hrestates,
    fun index hindex hlt ↦ ?_⟩
  obtain ⟨source, hsource, rfl⟩ := hsources index hindex (Nat.le_of_lt_succ hlt)
  rw [hrows]
  exact List.mem_map_of_mem (Dictionary.used_indexCounts_iff.mp hsource).2

end

/-- Reconciling the dictionary of a column, with this usage, never changes what its rows say. -/
structure Reconciles (column : Column) (current : Shared Dictionary) (usage : Array Nat) :
    Prop where
  /-- Reordered by a permutation that keeps `0`. -/
  remap : ∀ (permutation : List Nat) (token : Token),
    permutation.Perm (List.range current.value.size) → permutation.head? = some 0 →
    (current.value.size ≤ rowLimit → ∃ remapped renumbering derived,
      current.value.remap permutation = .ok (remapped, renumbering) ∧
      column.withDictionary ⟨token, remapped⟩ renumbering = .ok derived ∧
      derived.Restates column ⟨token, remapped⟩) ∧
    (rowLimit < current.value.size → current.value.remap permutation =
      .error (.invalidArgument "values" "values.len() < i32::MAX as usize"))
  /-- Appended to another dictionary. -/
  mergeInto : ∀ (other : Dictionary) (token : Token),
    column.RestatesFor ⟨token, (other.merge current.value).1⟩ (other.merge current.value).2
  /-- With the texts of another dictionary appended. -/
  mergeFrom : ∀ (other : Dictionary) (token : Token),
    column.RestatesFor ⟨token, (current.value.merge other).1⟩ (.identity current.value.size)
  /-- Compacted, after which rows read every text that is left, and compacting again answers with
  the very same dictionary. -/
  compact : ∀ fresh : Token, ∃ compacted renumbering derived left,
    Dictionary.compact current usage.toList fresh = .ok (compacted, renumbering) ∧
    column.withDictionary compacted renumbering = .ok derived ∧
    derived.Restates column compacted ∧
    (∀ index text, compacted.value.get? index = some text →
      ∃ row < derived.size, derived.get row = .ok (.text text)) ∧
    derived.categoryUsage = .ok left ∧
    ∀ again : Token, Dictionary.compact compacted left.toList again =
      .ok (compacted, .identity compacted.value.size)

/-- A nominal column is restated for every dictionary that its own is reconciled to. -/
theorem Reachable.reconciles {column : Column} (h : column.Reachable)
    (hnominal : column.type = .nominal) :
    ∃ current usage, column.dictionary? = some current ∧ column.categoryUsage = .ok usage ∧
      column.Reconciles current usage := by
  obtain ⟨type, data⟩ := column
  have hholds := h.valid.holds
  cases data with
  | categories layout current =>
    have hformed : layout.Formed := h.formed
    have hroom : current.value.maxIndex ≤ IndexFormat.int32.maxIndex :=
      IndexFormat.fits_iff.mp (IndexFormat.fits_int32 h.valid.stores.1)
    refine ⟨current, _, rfl, categoryUsage_eq hformed, ?_, ?_, ?_, ?_⟩
    · intro permutation token hpermutation hzero
      refine ⟨fun hsize ↦ ?_, Dictionary.remap_of_full hpermutation hzero⟩
      obtain ⟨remapped, renumbering, hremap, hsame, hcarries⟩ :=
        Dictionary.exists_remap hpermutation hzero hsize
      have hrestatesFor : RestatesFor _ ⟨token, remapped⟩ renumbering :=
        restatesFor_of_carries h hcarries
      obtain ⟨derived, hderived, hrestates⟩ := hrestatesFor.exists_restates (hsame ▸ hroom)
      exact ⟨remapped, renumbering, derived, hremap, hderived, hrestates⟩
    · exact fun other token ↦ restatesFor_of_carries h (other.carries_merge current.value)
    · intro other token
      have hword : current.value.size < 4294967296 :=
        Nat.lt_of_le_of_lt (Nat.succ_le_succ hroom) (by decide)
      exact restatesFor_of_carries h
        (Renumbering.carries_identity (current.value.merge_extends other) hword)
    · intro fresh
      obtain ⟨compacted, renumbering, derived, hcompact, hderived, hrestates, hread⟩ :=
        exists_restates_compact h fresh
      refine ⟨compacted, renumbering, _, _, hcompact, hderived, hrestates, ?_,
        categoryUsage_eq hrestates.reachable.formed, fun again ↦ ?_⟩
      · intro index text htext
        obtain ⟨position, rfl, -⟩ := Dictionary.get?_eq_some_iff.mp htext
        have hlt := Nat.lt_succ_of_le (Dictionary.le_maxIndex_of_get? htext)
        obtain ⟨row, hrow, hindex⟩ :=
          Layout.mem_rows_iff.mp (hread _ (Nat.succ_pos position) hlt)
        refine ⟨row, hrow, (get_of_lt hrow).trans (congrArg Except.ok ?_)⟩
        exact categoryValue_eq_text_iff.mpr (hindex ▸ htext)
      · exact Dictionary.compact_of_used (by simp [indexCounts]) (fun index hindex hlt ↦
          Dictionary.used_indexCounts_iff.mpr ⟨hlt, hread index hindex hlt⟩) again
  | _ => simp_all [ColumnData.holds]

/-- A view with a row out of range, over a store with an index that no row reads. -/
theorem Reachable.reconciles_of_view : ∃ dictionary indices,
    Dictionary.ofList ["ash", "oak", "elm"] = .ok dictionary ∧
      IndexArray.ofList .uint2 [3, 2, 1] = .ok indices ∧
      Reconciles ⟨.nominal, .categories (.mapped indices ⟨0, .ofList [2, 7, 0]⟩) ⟨1, dictionary⟩⟩
        ⟨1, dictionary⟩ #[1, 1, 0, 1] := by
  have hdistinct : ["ash", "oak", "elm"].Nodup := by decide
  obtain ⟨dictionary, hdictionary, htexts⟩ := Dictionary.exists_ofList hdistinct (by decide)
  obtain ⟨indices, hindices⟩ : ∃ indices, IndexArray.ofList .uint2 [3, 2, 1] = .ok indices :=
    ⟨_, rfl⟩
  have hsize : dictionary.texts.size = 3 := Dictionary.maxIndex_of_toList htexts
  have hvalid : (ColumnData.categories (.mapped indices ⟨0, .ofList [2, 7, 0]⟩)
      ⟨1, dictionary⟩).Valid .nominal := by
    cases hindices
    exact ColumnData.valid_of_maxIndex hsize rfl (by decide)
  have haccepted : (ColumnData.categories (.mapped indices ⟨0, .ofList [2, 7, 0]⟩)
      ⟨1, dictionary⟩).Accepted := ⟨trivial, trivial⟩
  obtain ⟨current, usage, hcurrent, husage, hreconciles⟩ :=
    Reachable.reconciles (.ofData haccepted (ofData_of_valid hvalid)) rfl
  cases hcurrent
  refine ⟨dictionary, indices, hdictionary, hindices, ?_⟩
  have hcounts : usage = indexCounts (dictionary.texts.size + 1) _ :=
    Except.ok.inj (husage.symm.trans (categoryUsage_eq trivial))
  rw [hsize] at hcounts
  cases hindices
  cases (hcounts.trans rfl : usage = #[1, 1, 0, 1])
  exact hreconciles

/-- The indices of a full dictionary fit the widest format, but neither can it be reordered, not
even by the identity, nor does its column take a union with one more text. -/
theorem exists_reconciling_refused : ∃ (first second third current : Dictionary)
      (indices : IndexArray),
    Dictionary.ofList (Dictionary.tallies 0 2147483646) = .ok first ∧
      Dictionary.ofList (Dictionary.tallies 2147483646 1) = .ok second ∧
      Dictionary.ofList (Dictionary.tallies 2147483647 1) = .ok third ∧
      (first.merge second).1 = current ∧
      IndexArray.ofList .int32 [1, 0, 2147483647] = .ok indices ∧
      ∀ token : Token,
        Reachable ⟨.nominal, .categories (.dense indices) ⟨token, current⟩⟩ ∧
        current.remap (List.range current.size) =
          .error (.invalidArgument "values" "values.len() < i32::MAX as usize") ∧
        withDictionary ⟨.nominal, .categories (.dense indices) ⟨token, current⟩⟩
            ⟨token + 1, (current.merge third).1⟩ (.identity current.size) =
          .error (IndexFormat.int32.overflow 2147483648) := by
  obtain ⟨first, hfirst, hfirstTexts⟩ :=
    Dictionary.exists_ofList_tallies 0 (by decide : 2147483646 < IndexFormat.int32.maxIndex)
  obtain ⟨second, hsecond, htexts⟩ :=
    Dictionary.exists_merge_tallies hfirstTexts (by decide : 1 < IndexFormat.int32.maxIndex)
  obtain ⟨third, hthird, hunion⟩ :=
    Dictionary.exists_merge_tallies htexts (by decide : 1 < IndexFormat.int32.maxIndex)
  obtain ⟨indices, hindices⟩ :
      ∃ indices, IndexArray.ofList .int32 [1, 0, 2147483647] = .ok indices := ⟨_, rfl⟩
  generalize hcurrent : (first.merge second).1 = current at htexts hunion
  have hsize : current.texts.size = 2147483647 :=
    (Dictionary.maxIndex_of_toList htexts).trans (Dictionary.length_tallies 0 _)
  have hmax : (current.merge third).1.maxIndex = 2147483648 :=
    (Dictionary.maxIndex_of_toList hunion).trans (Dictionary.length_tallies 0 _)
  refine ⟨first, second, third, current, indices, hfirst, hsecond, hthird, hcurrent, hindices,
    fun token ↦ ?_⟩
  have hvalid : (ColumnData.categories (.dense indices) ⟨token, current⟩).Valid .nominal := by
    cases hindices
    exact ColumnData.valid_of_maxIndex hsize rfl (by decide)
  have haccepted : (ColumnData.categories (.dense indices) ⟨token, current⟩).Accepted :=
    ⟨trivial, trivial⟩
  have hreachable : Reachable ⟨.nominal, .categories (.dense indices) ⟨token, current⟩⟩ :=
    .ofData haccepted (ofData_of_valid hvalid)
  refine ⟨hreachable, Dictionary.remap_of_full (.refl _) ?_ ?_, ?_⟩
  · rw [Dictionary.size, List.range_succ_eq_map, List.head?_cons]
  · rw [Dictionary.size, hsize]
    decide
  · have hword : current.size < 4294967296 := by
      rw [Dictionary.size, hsize]
      decide
    have hrestates : RestatesFor _ ⟨token + 1, (current.merge third).1⟩ (.identity current.size) :=
      restatesFor_of_carries hreachable
        (Renumbering.carries_identity (current.merge_extends third) hword)
    have hrefused := hrestates.refused
    rw [hmax] at hrefused
    exact hrefused (by decide)

end Column

end Columnar
