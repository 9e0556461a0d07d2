import Columnar.Proofs.Column.Counting
import Columnar.Proofs.Column.Filling
import Mathlib.Algebra.GroupWithZero.Nat
import Mathlib.Algebra.Order.BigOperators.Group.Finset

/-!
# The usage of categories

The usage of a nominal column has an entry for every index of its dictionary, which counts the rows
that a fill writes this index for (`CountsRows`). A row of a view that shows nothing counts as
missing, and an index that no row shows does not count, though the store holds it. The counts add up
to the size of the column, and none is added outside the usage (`Layout.usage?_eq_some`). So columns
over one dictionary that read alike have the same usage, whatever their layouts
(`Reachable.counts_rows`).
-/

set_option autoImplicit false
set_option relaxedAutoImplicit false

namespace Columnar

/-! ### Counting within bounds -/

/-- Adds to the count of an index, if there is one. -/
def addCount? (amount : Nat) (usage : Array Nat) (index : Nat) : Option (Array Nat) :=
  if index < usage.size then some (usage.modify index (· + amount)) else none

theorem addCount?_eq_some {amount index size : Nat} {usage : Array Nat} (hindex : index < size)
    (hsize : usage.size = size) :
    addCount? amount usage index = some (usage.modify index (· + amount)) ∧
      (usage.modify index (· + amount)).size = size :=
  ⟨if_pos (hsize ▸ hindex), Array.size_modify.trans hsize⟩

/-- Indices below `size` are each counted once, and nothing else is. -/
theorem sum_indexCounts {size : Nat} {indices : List Nat} (h : ∀ index ∈ indices, index < size) :
    (indexCounts size indices).toList.sum = indices.length := by
  have hall : ∀ index ∈ (indices : Multiset Nat), index ∈ Finset.range size :=
    fun index hindex ↦ Finset.mem_range.mpr (h index hindex)
  calc (indexCounts size indices).toList.sum
      = ((List.range size).map fun index ↦ (indices : Multiset Nat).count index).sum := by
        simp [indexCounts]
    _ = ∑ index ∈ Finset.range size, (indices : Multiset Nat).count index := by
        rw [Finset.sum_eq_multiset_sum, Finset.range_val, Multiset.range, Multiset.map_coe,
          Multiset.sum_coe]
    _ = indices.length := Multiset.sum_count_eq_card hall

namespace Layout

variable {layout : Layout IndexArray Nat} {size : Nat}

/-- The usage of the layout, with every read and every addition checked. -/
def usage? (layout : Layout IndexArray Nat) (size : Nat) : Option (Array Nat) :=
  let unused := Array.replicate size 0
  match layout with
  | sparse source =>
    if source.exceptionCount ≤ source.size then do
      let usage ← addCount? (source.size - source.exceptionCount) unused source.default
      (List.range source.exceptionCount).foldlM (fun usage place ↦
        (Store.get? source.exceptions place).bind (addCount? 1 usage)) usage
    else none
  | dense _ | mapped _ _ =>
    (layout.fill? (Array.replicate layout.size Cell.missing) 0 0 1 id).bind fun rows ↦
      rows.toList.foldlM (addCount? 1) unused

/-- While all indices are below the size, nothing is out of bounds. -/
theorem usage?_eq_some (hformed : layout.Formed)
    (hstored : ∀ index ∈ Column.storedCells layout, index < size)
    (hrows : ∀ index ∈ layout.rows, index < size) :
    layout.usage? size = some (indexCounts size layout.rows) := by
  have hunused : (Array.replicate size 0).size = size := Array.size_replicate
  have hplain : ((layout.fill? (Array.replicate layout.size Cell.missing) 0 0 1 id).bind
      fun rows ↦ rows.toList.foldlM (addCount? 1) (Array.replicate size 0)) =
        some (indexCounts size layout.rows) := by
    rw [fill?_eq_some hformed Nat.one_pos, Option.bind_some]
    change layout.toArray.toList.foldlM _ _ = _
    rw [toList_toArray hformed, ← foldl_modify_zeros]
    exact foldlM_eq_some (fun usage : Array Nat ↦ usage.size = size)
      (fun usage index hsize hmem ↦ addCount?_eq_some (hrows index hmem) hsize) hunused
  cases layout with
  | dense store => exact hplain
  | mapped store mapping => exact hplain
  | sparse source =>
    obtain ⟨hdefault, hexceptions⟩ := List.forall_mem_cons.mp hstored
    obtain ⟨hadded, hsize⟩ := @addCount?_eq_some (source.size - source.exceptionCount) _ _ _
      hdefault hunused
    have hcount : Store.size source.exceptions = source.exceptionCount := hformed.exceptions
    unfold usage?
    simp only [if_pos (SparseStore.toList_perm hformed).1, hadded, Option.bind_eq_bind,
      Option.bind_some]
    rw [← foldl_modify_sparse hformed, Store.toList, List.foldl_map, hcount]
    refine foldlM_eq_some (fun usage : Array Nat ↦ usage.size = size) ?_ hsize
    intro usage place hsize hplace
    have hlt := hcount ▸ List.mem_range.mp hplace
    have hindex : Store.read source.exceptions place ∈ Store.toList source.exceptions :=
      List.mem_map_of_mem (List.mem_range.mpr hlt)
    rw [Store.get?_of_lt hlt, Option.bind_some]
    exact addCount?_eq_some (hexceptions _ hindex) hsize

/-- A view reads what its entries name, and missing where they name nothing. -/
theorem rows_mapped (store : IndexArray) (mapping : Shared Mapping) :
    (mapped store mapping).rows = mapping.value.toList.map fun entry ↦
      (Mapping.target? (Store.size store) entry).elim 0 (Store.read store) := by
  refine List.ext_getElem? fun row ↦ ?_
  rw [getElem?_rows, List.getElem?_map, Mapping.toList, Array.getElem?_toList]
  show (if row < mapping.value.size then some (readThrough store mapping.value row) else none) = _
  split
  · next hrow =>
    rw [readThrough, Mapping.resolve?, Array.getElem?_eq_getElem hrow]
    simp only [Option.map_some]
    cases Mapping.target? (Store.size store) mapping.value.entries[row] <;> rfl
  · next hrow => rw [Array.getElem?_eq_none (Nat.not_lt.mp hrow), Option.map_none]

end Layout

/-! ### The usage of a column -/

/-- A fill of a whole buffer from the first row writes all rows. -/
theorem FillsRows.toList_eq {T : Type} {size count : Nat} {cell : Nat → T}
    {buffer filled : Array T} (h : FillsRows size cell buffer 0 0 1 count filled)
    (hbuffer : buffer.size = size) :
    count = size ∧ filled.toList = (List.range size).map cell := by
  have hlt {k : Nat} : k < count ↔ k < size := by
    rw [h.lt_iff, hbuffer, Nat.zero_add, Nat.zero_add, Nat.mul_one, and_self]
  have hcount : count = size := Nat.le_antisymm
    (Nat.le_of_not_lt fun hover ↦ Nat.lt_irrefl _ (hlt.mp hover))
    (Nat.le_of_not_lt fun hless ↦ Nat.lt_irrefl _ (hlt.mpr hless))
  refine ⟨hcount, List.ext_getElem? fun row ↦ ?_⟩
  rw [Array.getElem?_toList, List.getElem?_map]
  by_cases hrow : row < size
  · have hwritten := h.written row (hlt.mpr hrow)
    rw [Nat.zero_add, Nat.zero_add, Nat.mul_one] at hwritten
    rw [hwritten, List.getElem?_range hrow, Option.map_some]
  · have hle := Nat.not_lt.mp hrow
    rw [Array.getElem?_eq_none (by rwa [h.size_eq, hbuffer]), List.getElem?_eq_none (by simpa),
      Option.map_none]

namespace Column

variable (column : Column)

/-- The usage, with every read and every addition checked. -/
def categoryUsage? : Option (Array Nat) :=
  match column.data with
  | .categories layout dictionary => layout.usage? dictionary.value.size
  | _ => none

/-- The usage counts the rows of the column. -/
structure CountsRows (dictionary : Dictionary) (usage : Array Nat) : Prop where
  size_eq : usage.size = dictionary.size
  /-- Each entry counts the rows that a fill writes its index for. -/
  counts : ∀ buffer : Array Nat, buffer.size = column.size → ∃ filled,
    column.fillIndices buffer 0 = .ok (column.size, filled) ∧
      ∀ index < dictionary.size, usage[index]? = some (filled.toList.count index)
  /-- A view counts what its entries name, and missing for those that name nothing. -/
  view : ∀ (store : IndexArray) (mapping : Shared Mapping) (shared : Shared Dictionary),
    column.data = .categories (.mapped store mapping) shared →
      ∀ index < dictionary.size, usage[index]? = some ((mapping.value.toList.map fun entry ↦
        (Mapping.target? (Store.size store) entry).elim 0 (Store.read store)).count index)
  sum_eq : usage.toList.sum = column.size
  /-- Nothing that is read or counted on the way is out of bounds. -/
  inside : column.categoryUsage? = some usage

variable {column}

theorem countsRows {type : ColumnType} {layout : Layout IndexArray Nat}
    {dictionary : Shared Dictionary} (h : Reachable ⟨type, .categories layout dictionary⟩) :
    CountsRows ⟨type, .categories layout dictionary⟩ dictionary.value
      (indexCounts dictionary.value.size layout.rows) := by
  have hformed : layout.Formed := h.formed
  have hrows : ∀ index ∈ layout.rows, index < dictionary.value.size := by
    intro index hindex
    obtain ⟨row, -, rfl⟩ := Layout.mem_rows_iff.mp hindex
    exact read_lt_size h.valid row
  have hcount {index : Nat} (hindex : index < dictionary.value.size) :
      (indexCounts dictionary.value.size layout.rows)[index]? =
        some (layout.rows.count index) := by
    rw [getElem?_indexCounts, if_pos hindex]
  refine ⟨by simp [indexCounts], ?_, ?_, ?_, ?_⟩
  · intro buffer hbuffer
    obtain ⟨count, filled, hfill, hfills⟩ := (fillIndices_law h.valid h.formed buffer 0).fills
      h.valid.eq_nominal Nat.one_pos (Nat.zero_le _)
    obtain ⟨rfl, hlist⟩ := hfills.toList_eq hbuffer
    refine ⟨filled, hfill, fun index hindex ↦ ?_⟩
    rw [hcount hindex, hlist]
    rfl
  · intro store mapping shared hdata index hindex
    cases hdata
    rw [hcount hindex, Layout.rows_mapped]
  · rw [sum_indexCounts hrows, Layout.length_rows]
    rfl
  · exact Layout.usage?_eq_some hformed
      (fun index hindex ↦ Nat.lt_succ_of_le (h.valid.stores.2 index hindex)) hrows

/-- Indices within dictionaries of the same texts have the same value only if they are the same. -/
theorem rows_eq_of_get {type otherType : ColumnType} {layout other : Layout IndexArray Nat}
    {dictionary shared : Shared Dictionary}
    (h : Reachable ⟨type, .categories layout dictionary⟩)
    (hother : Reachable ⟨otherType, .categories other shared⟩)
    (htexts : shared.value.texts = dictionary.value.texts) (hsize : other.size = layout.size)
    (hget : ∀ row < layout.size, get ⟨otherType, .categories other shared⟩ row =
      get ⟨type, .categories layout dictionary⟩ row) : other.rows = layout.rows := by
  have hvalue (index : Nat) :
      categoryValue shared.value index = categoryValue dictionary.value index := by
    unfold categoryValue
    cases index with
    | zero => rfl
    | succ position => simp only [Dictionary.get?, htexts]
  unfold Layout.rows
  rw [hsize]
  refine List.map_congr_left fun row hrow ↦ ?_
  have hrow : row < layout.size := List.mem_range.mp hrow
  have hrowOther : row < other.size := hsize ▸ hrow
  have hsame := hget row hrow
  rw [get_of_lt hrowOther, get_of_lt hrow] at hsame
  have hlast : shared.value.maxIndex = dictionary.value.maxIndex := congrArg Array.size htexts
  refine categoryValue_injective (hlast ▸ Nat.le_of_lt_succ (read_lt_size hother.valid row))
    (Nat.le_of_lt_succ (read_lt_size h.valid row)) ?_
  rw [← hvalue]
  exact Except.ok.inj hsame

/-- The usage of every reachable nominal column counts its rows, and any other column over the same
dictionary that reads alike has the same usage. -/
theorem Reachable.counts_rows (h : column.Reachable) (hnominal : column.type = .nominal) :
    ∃ dictionary usage, column.dictionary? = some dictionary ∧ column.categoryUsage = .ok usage ∧
      column.CountsRows dictionary.value usage ∧
      ∀ (other : Column) (shared : Shared Dictionary), other.Reachable →
        other.dictionary? = some shared → shared.value.agrees dictionary.value →
        other.size = column.size → (∀ row < column.size, other.get row = column.get row) →
        other.categoryUsage = .ok usage := by
  obtain ⟨type, data⟩ := column
  have hholds := h.valid.holds
  cases data with
  | categories layout dictionary =>
    refine ⟨dictionary, _, rfl, categoryUsage_eq h.formed, countsRows h, ?_⟩
    rintro ⟨otherType, data⟩ shared hother hshared hagrees hsize hget
    cases data with
    | categories other current =>
      cases hshared
      have htexts : shared.value.texts = dictionary.value.texts := eq_of_beq hagrees
      have hentries : shared.value.size = dictionary.value.size := by
        rw [Dictionary.size, htexts, Dictionary.size]
      rw [categoryUsage_eq hother.formed, rows_eq_of_get h hother htexts hsize hget, hentries]
    | _ => contradiction
  | _ => simp_all [ColumnData.holds]

/-- A sparse column with an exception that repeats the default. -/
theorem Reachable.counts_rows_repeated : ∃ dictionary exceptions source column,
    Dictionary.ofList ["ash", "oak"] = .ok dictionary ∧
      IndexArray.ofList .uint2 [1, 2] = .ok exceptions ∧
      SparseStore.ofExceptions 1 4 [0, 3] exceptions = .ok source ∧
      Column.ofData .nominal (.categories (.sparse source) ⟨0, dictionary⟩) = .ok column ∧
      column.Reachable ∧ column.CountsRows dictionary #[0, 3, 1] := by
  have hdistinct : ["ash", "oak"].Nodup := by decide
  obtain ⟨dictionary, hdictionary, htexts⟩ := Dictionary.exists_ofList hdistinct (by decide)
  have hsize : dictionary.texts.size = 2 := Dictionary.maxIndex_of_toList htexts
  obtain ⟨exceptions, hexceptions⟩ : ∃ exceptions,
      IndexArray.ofList .uint2 [1, 2] = .ok exceptions := ⟨_, rfl⟩
  obtain ⟨source, hsource⟩ : ∃ source,
      SparseStore.ofExceptions 1 4 [0, 3] exceptions = .ok source := by
    cases hexceptions
    exact ⟨_, rfl⟩
  have hvalid : (ColumnData.categories (.sparse source) ⟨0, dictionary⟩).Valid .nominal := by
    cases hexceptions
    cases hsource
    exact ColumnData.valid_of_maxIndex hsize rfl (by decide)
  have haccepted : (ColumnData.categories (.sparse source) ⟨0, dictionary⟩).Accepted :=
    ⟨.ofExceptions hsource, trivial⟩
  have hreachable := Reachable.ofData haccepted (ofData_of_valid hvalid)
  obtain ⟨current, usage, hcurrent, husage, hcounts, -⟩ := Reachable.counts_rows hreachable rfl
  cases hcurrent
  refine ⟨dictionary, exceptions, source, _, hdictionary, hexceptions, hsource,
    ofData_of_valid hvalid, hreachable, ?_⟩
  have heq : usage = indexCounts (dictionary.texts.size + 1) _ :=
    Except.ok.inj (husage.symm.trans (categoryUsage_eq hreachable.formed))
  rw [hsize] at heq
  cases hexceptions
  cases hsource
  cases (heq.trans rfl : usage = #[0, 3, 1])
  exact hcounts

end Column

end Columnar
