import Columnar.Column.Read
import Columnar.Proofs.Column.Deriving
import Columnar.Proofs.Layout.Filling

/-!
# Ordering rows

A comparison orders a list of cells when, among these cells, swapping the arguments swaps the answer
and being less or equal is transitive (`Ordered`). Every sortable column has such a comparison for
its present cells (`ordered_numbers` to `ordered_texts`), and putting the missing cells last keeps
it one. Sorting then lists every row once, and of two rows in the list the first one may stand
before the second; if they tie, it is the earlier row (`exists_sortPermutation`).
-/

set_option autoImplicit false
set_option relaxedAutoImplicit false

namespace Columnar

/-! ### Comparisons that order some cells -/

section Orders

variable {C : Type} {cells : List C} {compare : C → C → Ordering}

/-- Among these cells the comparison is a total preorder. -/
structure Ordered (cells : List C) (compare : C → C → Ordering) : Prop where
  swap : ∀ first ∈ cells, ∀ second ∈ cells, compare second first = (compare first second).swap
  trans : ∀ first ∈ cells, ∀ second ∈ cells, ∀ third ∈ cells, (compare first second).isLE →
    (compare second third).isLE → (compare first third).isLE

theorem Ordered.total (h : Ordered cells compare) {first second : C} (hfirst : first ∈ cells)
    (hsecond : second ∈ cells) : (compare first second).isLE ∨ (compare second first).isLE := by
  rw [h.swap first hfirst second hsecond]
  cases compare first second <;> decide

/-- Comparing by keys of an ordered kind orders all cells. -/
theorem Ordered.of_key {K : Type} [Ord K] [Std.TransOrd K] (key : C → K)
    (h : ∀ first ∈ cells, ∀ second ∈ cells,
      compare first second = Ord.compare (key first) (key second)) : Ordered cells compare where
  swap first hfirst second hsecond := by
    rw [h first hfirst second hsecond, h second hsecond first hfirst]
    exact Std.OrientedCmp.eq_swap
  trans first hfirst second hsecond third hthird := by
    rw [h first hfirst second hsecond, h second hsecond third hthird, h first hfirst third hthird]
    exact Std.TransCmp.isLE_trans

/-- Ordering labels is ordering what they label. -/
theorem ordered_map_iff {α : Type} {items : List α} {label : α → C} :
    Ordered (items.map label) compare ↔
      Ordered items fun first second ↦ compare (label first) (label second) := by
  constructor
  · intro h
    exact ⟨fun first hfirst second hsecond ↦
        h.swap _ (List.mem_map_of_mem hfirst) _ (List.mem_map_of_mem hsecond),
      fun first hfirst second hsecond third hthird ↦
        h.trans _ (List.mem_map_of_mem hfirst) _ (List.mem_map_of_mem hsecond) _
          (List.mem_map_of_mem hthird)⟩
  · intro h
    constructor
    · simp only [List.forall_mem_map]
      exact h.swap
    · simp only [List.forall_mem_map]
      exact h.trans

/-- Putting the missing cells last keeps the present ones ordered. -/
theorem Ordered.missingLast {isMissing : C → Bool}
    (h : Ordered (cells.filter fun cell ↦ !isMissing cell) compare) :
    Ordered cells (compareMissingLast isMissing compare) := by
  have hpresent {cell : C} (hcell : cell ∈ cells) (hmissing : isMissing cell = false) :
      cell ∈ cells.filter fun cell ↦ !isMissing cell :=
    List.mem_filter.mpr ⟨hcell, by rw [hmissing]; rfl⟩
  constructor
  · intro first hfirst second hsecond
    unfold compareMissingLast
    cases hone : isMissing first <;> cases htwo : isMissing second
    · exact h.swap first (hpresent hfirst hone) second (hpresent hsecond htwo)
    · rfl
    · rfl
    · rfl
  · intro first hfirst second hsecond third hthird
    unfold compareMissingLast
    intro hle hle'
    cases hthree : isMissing third
    · cases hone : isMissing first <;> cases htwo : isMissing second <;>
        simp only [hone, htwo, hthree] at hle hle' ⊢
      · exact h.trans first (hpresent hfirst hone) second (hpresent hsecond htwo) third
          (hpresent hthird hthree) hle hle'
      · contradiction
      · contradiction
      · contradiction
    · cases isMissing first <;> rfl

/-- Either direction of an ordering compares any two cells, and is transitive. -/
theorem Ordered.allows (h : Ordered cells compare) (order : SortOrder) :
    (∀ first ∈ cells, ∀ second ∈ cells,
      order.allows compare first second || order.allows compare second first) ∧
    ∀ first ∈ cells, ∀ second ∈ cells, ∀ third ∈ cells, order.allows compare first second →
      order.allows compare second third → order.allows compare first third := by
  cases order with
  | ascending =>
    refine ⟨fun first hfirst second hsecond ↦ ?_, h.trans⟩
    simpa [SortOrder.allows] using h.total hfirst hsecond
  | descending =>
    refine ⟨fun first hfirst second hsecond ↦ ?_, ?_⟩
    · simpa [SortOrder.allows] using h.total hsecond hfirst
    · intro first hfirst second hsecond third hthird hone htwo
      exact h.trans third hthird second hsecond first hfirst htwo hone

end Orders

/-! ### Sorting -/

section MergeSort

variable {α : Type}

/-- Items that all tie stand in the sorted list as they did before. -/
theorem filter_mergeSort (le : α → α → Bool)
    (htotal : ∀ first second, le first second || le second first)
    (htrans : ∀ first second third, le first second → le second third → le first third)
    (items : List α) (tied : α → Bool)
    (htied : ∀ first second, tied first → tied second → le first second) :
    (items.mergeSort le).filter tied = items.filter tied := by
  have hsorted : (items.filter tied).Pairwise fun first second ↦ le first second :=
    List.pairwise_filter.mpr (List.pairwise_of_forall htied)
  have hsublist : (items.filter tied).Sublist ((items.mergeSort le).filter tied) := by
    have hkept := (List.sublist_mergeSort htrans htotal hsorted List.filter_sublist).filter tied
    simpa using hkept
  exact (hsublist.eq_of_length ((List.mergeSort_perm items le).filter tied).length_eq.symm).symm

variable (items : List α) (le : α → α → Bool)
  (htotal : ∀ first ∈ items, ∀ second ∈ items, le first second || le second first)
  (htrans : ∀ first ∈ items, ∀ second ∈ items, ∀ third ∈ items, le first second →
    le second third → le first third)

/-- The items can be sorted together with the proofs that they are among the items. -/
theorem map_val_mergeSort_attach :
    (items.attach.mergeSort fun first second ↦ le first.1 second.1).map Subtype.val =
      items.mergeSort le := by
  rw [List.map_mergeSort (s := le) fun _ _ _ _ ↦ rfl, List.attach_map_subtype_val]

include htotal htrans

/-- Merge sort needs an order only of what it sorts. -/
theorem pairwise_mergeSort_of_mem :
    (items.mergeSort le).Pairwise fun first second ↦ le first second := by
  rw [← map_val_mergeSort_attach, List.pairwise_map]
  exact List.pairwise_mergeSort (fun first second third ↦
    htrans first.1 first.2 second.1 second.2 third.1 third.2)
    (fun first second ↦ htotal first.1 first.2 second.1 second.2) items.attach

/-- As `filter_mergeSort`, for an order of the items. -/
theorem filter_mergeSort_of_mem (tied : α → Bool)
    (htied : ∀ first ∈ items, ∀ second ∈ items, tied first → tied second → le first second) :
    (items.mergeSort le).filter tied = items.filter tied := by
  have hattach := filter_mergeSort (fun first second : {item // item ∈ items} ↦
      le first.1 second.1)
    (fun first second ↦ htotal first.1 first.2 second.1 second.2)
    (fun first second third ↦ htrans first.1 first.2 second.1 second.2 third.1 third.2)
    items.attach (fun item ↦ tied item.1)
    fun first second ↦ htied first.1 first.2 second.1 second.2
  calc (items.mergeSort le).filter tied
      = ((items.attach.mergeSort fun first second ↦ le first.1 second.1).filter
          fun item ↦ tied item.1).map Subtype.val := by
        rw [← map_val_mergeSort_attach, List.filter_map]
        rfl
    _ = (items.attach.filter fun item ↦ tied item.1).map Subtype.val := by rw [hattach]
    _ = (items.attach.map Subtype.val).filter tied := by
        rw [List.filter_map]
        rfl
    _ = items.filter tied := by rw [List.attach_map_subtype_val]

end MergeSort

variable {C : Type} {cells : List C} {compare : C → C → Ordering} {isMissing : C → Bool}

/-- Among sorted rows `first` stands before `second`: the order allows it, and if it allows the
reverse too, then `first` is the earlier row. -/
def SortOrder.Precedes (order : SortOrder) (compare : Nat → Nat → Ordering) (first second : Nat) :
    Prop :=
  order.allows compare first second ∧ (order.allows compare second first → first < second)

/-- Sorting lists every row once, and of two rows the first one may stand before the second; rows
that tie keep their order. -/
theorem exists_sortPermutation (order : SortOrder) (hlength : cells.length ≤ rowLimit)
    (hordered : Ordered cells (compareMissingLast isMissing compare)) :
    ∃ rows : List Nat, sortPermutation cells order compare isMissing =
        .ok (.ofList (rows.map fun row : Nat ↦ (row : Int))) ∧
      rows.Perm (List.range cells.length) ∧
      rows.Pairwise fun first second ↦ ∀ one two, cells[first]? = some one →
        cells[second]? = some two →
        order.allows (compareMissingLast isMissing compare) one two ∧
          (order.allows (compareMissingLast isMissing compare) two one → first < second) := by
  obtain ⟨htotal, htrans⟩ := hordered.allows order
  let le (first second : C × Nat) : Bool :=
    order.allows (compareMissingLast isMissing compare) first.1 second.1
  have hcell {item : C × Nat} (hitem : item ∈ cells.zipIdx) : item.1 ∈ cells :=
    List.fst_mem_of_mem_zipIdx hitem
  have hletotal : ∀ first ∈ cells.zipIdx, ∀ second ∈ cells.zipIdx,
      le first second || le second first :=
    fun first hfirst second hsecond ↦ htotal first.1 (hcell hfirst) second.1 (hcell hsecond)
  have hletrans : ∀ first ∈ cells.zipIdx, ∀ second ∈ cells.zipIdx, ∀ third ∈ cells.zipIdx,
      le first second → le second third → le first third :=
    fun first hfirst second hsecond third hthird ↦
      htrans first.1 (hcell hfirst) second.1 (hcell hsecond) third.1 (hcell hthird)
  have hsorted := pairwise_mergeSort_of_mem cells.zipIdx le hletotal hletrans
  have hperm := List.mergeSort_perm cells.zipIdx le
  have hrise : cells.zipIdx.Pairwise fun first second ↦ first.2 < second.2 := by
    rw [← List.pairwise_map (f := Prod.snd), List.zipIdx_map_snd]
    exact List.pairwise_lt_range' 1
  have hties : (cells.zipIdx.mergeSort le).Pairwise fun first second ↦
      le first second → le second first → first.2 < second.2 := by
    -- Two items that tie are listed as they were, and there the rows rise.
    refine List.pairwise_iff_forall_sublist.mpr fun {first second} hpair hle hge ↦ ?_
    let tied (item : C × Nat) : Bool := le first item && le item first
    have hfirst := hperm.mem_iff.mp (hpair.subset List.mem_cons_self)
    have hrefl : le first first := by simpa using hletotal first hfirst first hfirst
    have hkept := filter_mergeSort_of_mem cells.zipIdx le hletotal hletrans tied ?_
    · have hwithin := hpair.filter tied
      rw [hkept] at hwithin
      have hboth : [first, second].filter tied = [first, second] := by
        simp [tied, hle, hge, hrefl]
      rw [hboth] at hwithin
      exact List.pairwise_iff_forall_sublist.mp hrise (hwithin.trans List.filter_sublist)
    · intro one hone two htwo hbefore hafter
      simp only [tied, Bool.and_eq_true] at hbefore hafter
      exact hletrans one hone first hfirst two htwo hbefore.2 hafter.1
  refine ⟨(cells.zipIdx.mergeSort le).map Prod.snd, ?_, ?_, ?_⟩
  · unfold sortPermutation Fault.require
    rw [if_pos (by simpa using hlength), List.map_map]
    rfl
  · have hrows := hperm.map Prod.snd
    rwa [List.zipIdx_map_snd, ← List.range_eq_range'] at hrows
  · rw [List.pairwise_map]
    refine (hsorted.and hties).imp_of_mem fun {first second} hfirst hsecond hallowed one two hone
      htwo ↦ ?_
    have hread {item : C × Nat} (hitem : item ∈ cells.zipIdx.mergeSort le) :
        cells[item.2]? = some item.1 :=
      List.mem_zipIdx_iff_getElem?.mp (hperm.mem_iff.mp hitem)
    rw [hread hfirst] at hone
    rw [hread hsecond] at htwo
    cases hone
    cases htwo
    exact ⟨hallowed.1, hallowed.2 hallowed.1⟩

/-- Sorting the cells of a layout, with each row read from the layout. -/
theorem Layout.exists_sortPermutation {S : Type} [Cell C] [Store S C] {layout : Layout S C}
    (order : SortOrder) (hformed : layout.Formed) (hsize : layout.size ≤ rowLimit)
    (hordered : Ordered (List.range layout.size) fun first second ↦
      compareMissingLast isMissing compare (layout.read first) (layout.read second)) :
    ∃ rows : List Nat, sortPermutation layout.toArray.toList order compare isMissing =
        .ok (.ofList (rows.map fun row : Nat ↦ (row : Int))) ∧
      rows.Perm (List.range layout.size) ∧
      rows.Pairwise (order.Precedes fun first second ↦
        compareMissingLast isMissing compare (layout.read first) (layout.read second)) := by
  have hcells : Ordered layout.rows (compareMissingLast isMissing compare) :=
    ordered_map_iff.mpr hordered
  obtain ⟨rows, hsort, hperm, hsorted⟩ := Columnar.exists_sortPermutation order
    (layout.length_rows.symm ▸ hsize) hcells
  rw [length_rows] at hperm
  refine ⟨rows, by rw [toList_toArray hformed, hsort], hperm, ?_⟩
  refine hsorted.imp_of_mem fun {first second} hfirst hsecond hallowed ↦ ?_
  have hread {row : Nat} (hrow : row ∈ rows) : layout.rows[row]? = some (layout.read row) := by
    have hlt := List.mem_range.mp (hperm.mem_iff.mp hrow)
    rw [Layout.rows, List.getElem?_map, List.getElem?_range hlt]
    rfl
  have hrows := hallowed _ _ (hread hfirst) (hread hsecond)
  cases order <;> exact hrows

/-! ### The comparisons of sortable columns -/

theorem ordered_numbers (cells : List Binary64) :
    Ordered (cells.filter fun cell ↦ !cell.isNaN) Binary64.compare := by
  refine .of_key Binary64.rank fun first hfirst second hsecond ↦ ?_
  have hone := (List.mem_filter.mp hfirst).2
  have htwo := (List.mem_filter.mp hsecond).2
  simp only [Bool.not_eq_true'] at hone htwo
  rw [Binary64.compare, hone, htwo]
  rfl

theorem ordered_times (cells : List Int) :
    Ordered (cells.filter fun cell ↦ !(cell == TimeOfDay.missingNanos)) Ord.compare :=
  .of_key id fun _ _ _ _ ↦ rfl

instance : Ord Instant := ⟨Instant.compare⟩

/-- The time line orders instants by their seconds and then by their nanoseconds. -/
instance : Std.TransOrd Instant :=
  inferInstanceAs (Std.TransCmp (compareLex (compareOn Instant.seconds) (compareOn Instant.nanos)))

theorem ordered_instants (cells : List (Option Instant)) :
    Ordered (cells.filter fun cell ↦ !cell.isNone) Column.compareInstants := by
  refine .of_key id fun first _ second _ ↦ ?_
  cases first <;> cases second <;> rfl

theorem ordered_categories (dictionary : Dictionary) (cells : List Nat) :
    Ordered (cells.filter fun cell ↦ !(cell == 0)) (Column.compareCategories dictionary) := by
  refine .of_key dictionary.get? fun first _ second _ ↦ ?_
  unfold Column.compareCategories
  cases dictionary.get? first <;> cases dictionary.get? second <;> rfl

/-- The only sortable objects are texts. -/
theorem ordered_texts {cells : List Value} (h : ∀ cell ∈ cells, ColumnType.text.accepts cell) :
    Ordered (cells.filter fun cell ↦ !cell.isMissing) Value.compare := by
  have htext {cell : Value} (hcell : cell ∈ cells.filter fun cell ↦ !cell.isMissing) :
      ∃ text, cell = .text text := by
    obtain ⟨hmem, hpresent⟩ := List.mem_filter.mp hcell
    have haccepts := h cell hmem
    cases cell with
    | text text => exact ⟨text, rfl⟩
    | missing => contradiction
    | _ => contradiction
  refine .of_key Value.asText fun first hfirst second hsecond ↦ ?_
  obtain ⟨one, rfl⟩ := htext hfirst
  obtain ⟨two, rfl⟩ := htext hsecond
  rfl

/-! ### Sorting columns -/

/-- How two rows of a column compare, missing cells last. -/
def ColumnData.compareRows (data : ColumnData) (first second : Nat) : Ordering :=
  match data with
  | numbers layout => compareMissingLast Binary64.isNaN Binary64.compare (layout.read first)
      (layout.read second)
  | times layout => compareMissingLast (· == TimeOfDay.missingNanos) Ord.compare
      (layout.read first) (layout.read second)
  | instants layout => compareMissingLast (·.isNone) Column.compareInstants (layout.read first)
      (layout.read second)
  | categories layout dictionary => compareMissingLast (· == 0)
      (Column.compareCategories dictionary.value) (layout.read first) (layout.read second)
  | objects layout => compareMissingLast Value.isMissing Value.compare (layout.read first)
      (layout.read second)

/-- The rows of a layout are ordered when its present cells are. -/
theorem Layout.ordered_rows {S C : Type} [Cell C] [Store S C] (layout : Layout S C)
    {isMissing : C → Bool} {compare : C → C → Ordering}
    (h : Ordered (layout.rows.filter fun cell ↦ !isMissing cell) compare) :
    Ordered (List.range layout.size) fun first second ↦
      compareMissingLast isMissing compare (layout.read first) (layout.read second) :=
  ordered_map_iff.mp h.missingLast

/-- The rows of a sortable column are ordered. -/
theorem ColumnData.ordered_compareRows {data : ColumnData} {type : ColumnType}
    (hvalid : data.Valid type) (hsortable : type.supports .sortable) :
    Ordered (List.range data.size) data.compareRows := by
  cases data with
  | numbers layout => exact layout.ordered_rows (ordered_numbers _)
  | times layout => exact layout.ordered_rows (ordered_times _)
  | instants layout => exact layout.ordered_rows (ordered_instants _)
  | categories layout dictionary =>
    exact layout.ordered_rows (ordered_categories dictionary.value _)
  | objects layout =>
    have htype : type = .text := by
      have hholds := hvalid.holds
      cases type <;> first | rfl | contradiction
    refine layout.ordered_rows (ordered_texts fun cell hcell ↦ ?_)
    obtain ⟨row, -, rfl⟩ := Layout.mem_rows_iff.mp hcell
    rcases layout.read_eq_missing_or_mem row with hmissing | hmem
    · rw [hmissing]
      rfl
    · exact htype ▸ hvalid.stores _ hmem

/-- A sortable column sorts: its rows each come once, and of two rows the first one may stand before
the second; rows that tie keep their order. -/
theorem Column.exists_sort {column : Column} (order : SortOrder)
    (hvalid : column.data.Valid column.type)
    (hformed : column.data.onLayout fun layout ↦ layout.Formed)
    (hsortable : column.type.supports .sortable) (hsize : column.size ≤ rowLimit) :
    ∃ rows : List Nat, column.sort order = .ok (.ofList (rows.map fun row : Nat ↦ (row : Int))) ∧
      rows.Perm (List.range column.size) ∧
      rows.Pairwise (order.Precedes column.data.compareRows) := by
  have hordered := ColumnData.ordered_compareRows hvalid hsortable
  obtain ⟨type, data⟩ := column
  have hrequire : Column.require ⟨type, data⟩ .sortable "sort" = .ok () := if_pos hsortable
  unfold Column.sort
  rw [hrequire]
  cases data with
  | numbers layout => exact layout.exists_sortPermutation order hformed hsize hordered
  | times layout => exact layout.exists_sortPermutation order hformed hsize hordered
  | instants layout => exact layout.exists_sortPermutation order hformed hsize hordered
  | categories layout dictionary =>
    exact layout.exists_sortPermutation order hformed hsize hordered
  | objects layout => exact layout.exists_sortPermutation order hformed hsize hordered

end Columnar
