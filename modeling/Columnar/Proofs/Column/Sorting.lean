import Columnar.Proofs.Column.Missing
import Columnar.Proofs.Value.Clock

/-!
# Stable sorting

A row is sorted by the key of its value: the place of a number in the numeric order, the nanoseconds
of a time, the seconds and nanoseconds of an instant, or a text. For a nominal column that is the
text of the category, whatever its index. A missing row has no key. Sorting lists every row once,
with the missing rows in one block at the end, or at the start in descending order; the keys of the
other rows never fall, or never rise, and rows with one key keep their order (`SortedRows`).

There is only one such list (`eq_of_pairwise_before`), so the keys alone decide it: two columns with
the same keys are sorted alike, however they are laid out, packed or numbered. A stray time, which
reads as missing, is still sorted by its nanoseconds.
-/

set_option autoImplicit false
set_option relaxedAutoImplicit false

namespace Columnar

/-! ### Keys -/

/-- What a present row is sorted by. Both zeros have one place in the numeric order. -/
inductive SortKey where
  | number (rank : Int)
  | time (nanos : Int)
  | instant (seconds : Int) (nanos : Nat)
  | text (text : String)
  deriving DecidableEq, Repr

namespace SortKey

/-- Two keys of one kind, the first not greater than the second. -/
def Le : SortKey → SortKey → Prop
  | number first, number second => first ≤ second
  | time first, time second => first ≤ second
  | instant first earlier, instant second later =>
    first < second ∨ first = second ∧ earlier ≤ later
  | text first, text second => first ≤ second
  | _, _ => False

/-- As `Le`, with rows that have no key after all others. -/
def LeMissingLast : Option SortKey → Option SortKey → Prop
  | _, none => True
  | none, some _ => False
  | some first, some second => first.Le second

theorem le_refl (key : SortKey) : key.Le key := by
  cases key with
  | number rank => exact Int.le_refl rank
  | time nanos => exact Int.le_refl nanos
  | instant seconds nanos => exact .inr ⟨rfl, Nat.le_refl nanos⟩
  | text text => exact String.le_refl text

theorem le_antisymm {first second : SortKey} (h : first.Le second) (hreverse : second.Le first) :
    first = second := by
  cases first with
  | number rank =>
    cases second with
    | number other => exact congrArg number (Int.le_antisymm h hreverse)
    | _ => contradiction
  | time nanos =>
    cases second with
    | time other => exact congrArg time (Int.le_antisymm h hreverse)
    | _ => contradiction
  | instant seconds nanos =>
    cases second with
    | instant other later =>
      simp only [Le] at h hreverse
      have hseconds : seconds = other := by omega
      have hnanos : nanos = later := by omega
      rw [hseconds, hnanos]
    | _ => contradiction
  | text text =>
    cases second with
    | text other => exact congrArg SortKey.text (String.le_antisymm h hreverse)
    | _ => contradiction

theorem leMissingLast_refl (key : Option SortKey) : LeMissingLast key key := by
  cases key with
  | none => trivial
  | some key => exact key.le_refl

theorem leMissingLast_antisymm {first second : Option SortKey} (h : LeMissingLast first second)
    (hreverse : LeMissingLast second first) : first = second := by
  cases first with
  | none =>
    cases second with
    | none => rfl
    | some key => contradiction
  | some key =>
    cases second with
    | none => contradiction
    | some other => exact congrArg some (le_antisymm h hreverse)

end SortKey

/-- The key of a value; sets of texts and custom values have no order. -/
def Value.sortKey : Value → Option SortKey
  | .number value => some (.number value.rank)
  | .text value => some (.text value)
  | .time value => some (.time value.nanos)
  | .dateTime instant => some (.instant instant.seconds instant.nanos)
  | .missing | .textSet _ | .custom _ => none

/-! ### Comparing rows by their keys -/

theorem isLE_compare_text_iff {first second : String} :
    (Ord.compare first second).isLE ↔ first ≤ second :=
  isLE_compareOfLessAndEq String.le_antisymm String.not_le String.le_total

theorem Instant.isLE_compare_iff {first second : Instant} :
    (first.compare second).isLE ↔
      first.seconds < second.seconds ∨
        first.seconds = second.seconds ∧ first.nanos ≤ second.nanos := by
  unfold Instant.compare
  rw [Ordering.isLE_then_iff_or, Std.compare_eq_lt, Std.compare_eq_iff_eq, Std.isLE_compare]

/-- Missing cells are the ones without a key, so comparing cells is comparing their keys. -/
theorem isLE_compareMissingLast_iff {C : Type} {isMissing : C → Bool} {compare : C → C → Ordering}
    {first second : C} {one two : Option SortKey} (hone : one = none ↔ isMissing first)
    (htwo : two = none ↔ isMissing second)
    (hle : ∀ key other, one = some key → two = some other →
      ((compare first second).isLE ↔ key.Le other)) :
    (compareMissingLast isMissing compare first second).isLE ↔ SortKey.LeMissingLast one two := by
  unfold compareMissingLast
  cases one with
  | none =>
    rw [hone.mp rfl]
    cases two with
    | none =>
      rw [htwo.mp rfl]
      exact iff_of_true rfl trivial
    | some other =>
      rw [Bool.eq_false_iff.mpr fun h ↦ nomatch htwo.mpr h]
      exact iff_of_false nofun not_false
  | some key =>
    rw [Bool.eq_false_iff.mpr fun h ↦ nomatch hone.mpr h]
    cases two with
    | none =>
      rw [htwo.mp rfl]
      exact iff_of_true rfl trivial
    | some other =>
      rw [Bool.eq_false_iff.mpr fun h ↦ nomatch htwo.mpr h]
      exact hle key other rfl rfl

namespace ColumnData

variable {data : ColumnData} {type : ColumnType}

/-- What a row is sorted by: its value, or the nanoseconds that a column of times stores for it. -/
def sortKey (data : ColumnData) (row : Nat) : Option SortKey :=
  match data with
  | times layout =>
    if layout.read row = TimeOfDay.missingNanos then none else some (.time (layout.read row))
  | _ => (data.valueAt row).sortKey

theorem sortKey_numbers (layout : Layout NumberStore Binary64) (row : Nat) :
    (numbers layout).sortKey row =
      if (layout.read row).isNaN then none else some (.number (layout.read row).rank) := by
  show (Value.ofNumber (layout.read row)).sortKey = _
  unfold Value.ofNumber
  split <;> rfl

theorem sortKey_instants (layout : Layout InstantStore (Option Instant)) (row : Nat) :
    (instants layout).sortKey row =
      (layout.read row).map fun instant ↦ .instant instant.seconds instant.nanos := by
  show (Value.ofInstant? (layout.read row)).sortKey = _
  cases layout.read row <;> rfl

theorem sortKey_categories (layout : Layout IndexArray Nat) (dictionary : Shared Dictionary)
    (row : Nat) : (categories layout dictionary).sortKey row =
      (dictionary.value.get? (layout.read row)).map .text := by
  show (Column.categoryValue dictionary.value (layout.read row)).sortKey = _
  unfold Column.categoryValue
  cases dictionary.value.get? (layout.read row) <;> rfl

/-- A time that does not stray is sorted by its value too. -/
theorem sortKey_eq_of_not_strays {row : Nat} (h : ¬data.Strays row) :
    data.sortKey row = (data.valueAt row).sortKey := by
  cases data with
  | times layout =>
    show (if layout.read row = TimeOfDay.missingNanos then none else _) =
      (Column.timeValue (layout.read row)).sortKey
    by_cases hmissing : layout.read row = TimeOfDay.missingNanos
    · rw [if_pos hmissing, hmissing]
      rfl
    · rw [if_neg hmissing]
      unfold Column.timeValue
      cases htime : TimeOfDay.ofNanos? (layout.read row) with
      | none => exact absurd ⟨hmissing, htime⟩ h
      | some time =>
        rw [TimeOfDay.ofNanos?_eq_some_iff.mp htime]
        rfl
  | _ => rfl

/-- The cells of a sortable column of objects are texts. -/
theorem read_eq_missing_or_text {layout : Layout ObjectStore Value}
    (hvalid : (objects layout).Valid type) (hsortable : type.supports .sortable) (row : Nat) :
    layout.read row = .missing ∨ ∃ text, layout.read row = .text text := by
  have htype : type = .text := by
    have hholds := hvalid.holds
    cases type <;> first | rfl | contradiction
  rcases layout.read_eq_missing_or_mem row with hmissing | hmem
  · exact .inl hmissing
  · have haccepts : type.accepts (layout.read row) := hvalid.stores _ hmem
    rw [htype] at haccepts
    cases hcell : layout.read row with
    | missing => exact .inl rfl
    | text text => exact .inr ⟨text, rfl⟩
    | _ => rw [hcell] at haccepts; contradiction

/-- Only missing rows have no key. -/
theorem sortKey_eq_none_iff (hvalid : data.Valid type) (hsortable : type.supports .sortable)
    (row : Nat) : data.sortKey row = none ↔ data.missingAt row := by
  cases data with
  | numbers layout => simp [sortKey_numbers, missingAt]
  | times layout => simp [sortKey, missingAt]
  | instants layout => simp [sortKey_instants, missingAt]
  | categories layout dictionary =>
    have hvalue : Column.categoryValue dictionary.value (layout.read row) = .missing ↔
        (categories layout dictionary).missingAt row :=
      (valueAt_eq_missing_iff hvalid).trans (or_iff_left not_false)
    rw [← hvalue, sortKey_categories]
    unfold Column.categoryValue
    cases dictionary.value.get? (layout.read row) <;> simp
  | objects layout =>
    show (layout.read row).sortKey = none ↔ (layout.read row).isMissing
    rcases read_eq_missing_or_text hvalid hsortable row with hmissing | ⟨text, htext⟩
    · rw [hmissing]
      exact iff_of_true rfl rfl
    · rw [htext]
      simp [Value.sortKey, Value.isMissing]

/-- Rows compare as their keys do. -/
theorem isLE_compareRows_iff (hvalid : data.Valid type) (hsortable : type.supports .sortable)
    (first second : Nat) :
    (data.compareRows first second).isLE ↔
      SortKey.LeMissingLast (data.sortKey first) (data.sortKey second) := by
  have hone := sortKey_eq_none_iff hvalid hsortable first
  have htwo := sortKey_eq_none_iff hvalid hsortable second
  unfold compareRows
  cases data with
  | numbers layout =>
    apply isLE_compareMissingLast_iff hone htwo
    intro key other hkey hother
    rw [sortKey_numbers, Option.ite_none_left_eq_some, Bool.not_eq_true] at hkey hother
    obtain ⟨hnumber, hkey⟩ := hkey
    obtain ⟨hnumber', hother⟩ := hother
    cases hkey
    cases hother
    unfold Binary64.compare
    rw [hnumber, hnumber']
    exact Std.isLE_compare
  | times layout =>
    apply isLE_compareMissingLast_iff hone htwo
    intro key other hkey hother
    cases (Option.ite_none_left_eq_some.mp hkey).2
    cases (Option.ite_none_left_eq_some.mp hother).2
    exact Std.isLE_compare
  | instants layout =>
    apply isLE_compareMissingLast_iff hone htwo
    intro key other hkey hother
    rw [sortKey_instants, Option.map_eq_some_iff] at hkey hother
    obtain ⟨instant, hinstant, rfl⟩ := hkey
    obtain ⟨later, hlater, rfl⟩ := hother
    rw [hinstant, hlater]
    exact Instant.isLE_compare_iff
  | categories layout dictionary =>
    apply isLE_compareMissingLast_iff hone htwo
    intro key other hkey hother
    rw [sortKey_categories, Option.map_eq_some_iff] at hkey hother
    obtain ⟨text, htext, rfl⟩ := hkey
    obtain ⟨later, hlater, rfl⟩ := hother
    unfold Column.compareCategories
    rw [htext, hlater]
    exact isLE_compare_text_iff
  | objects layout =>
    apply isLE_compareMissingLast_iff hone htwo
    intro key other hkey hother
    change (layout.read first).sortKey = some key at hkey
    change (layout.read second).sortKey = some other at hother
    rcases read_eq_missing_or_text hvalid hsortable first with hmissing | ⟨text, htext⟩
    · rw [hmissing] at hkey
      contradiction
    · rcases read_eq_missing_or_text hvalid hsortable second with hmissing | ⟨later, hlater⟩
      · rw [hmissing] at hother
        contradiction
      · rw [htext] at hkey ⊢
        rw [hlater] at hother ⊢
        cases hkey
        cases hother
        exact isLE_compare_text_iff

end ColumnData

/-! ### Sorted rows -/

/-- A row with the first key may stand before one with the second. -/
def SortOrder.AllowsKeys (order : SortOrder) (first second : Option SortKey) : Prop :=
  match order with
  | ascending => SortKey.LeMissingLast first second
  | descending => SortKey.LeMissingLast second first

/-- Among sorted rows `first` stands before `second`, as the keys tell, or the rows where the keys
are equal. -/
def SortOrder.Before (order : SortOrder) (key : Nat → Option SortKey) (first second : Nat) : Prop :=
  order.AllowsKeys (key first) (key second) ∧ (key first = key second → first < second)

/-- These are the rows below `size`, sorted stably by their keys. -/
structure SortedRows (key : Nat → Option SortKey) (order : SortOrder) (size : Nat)
    (rows : List Nat) : Prop where
  /-- Every row comes once. -/
  perm : rows.Perm (List.range size)
  /-- The missing rows form one block, last in ascending and first in descending order. -/
  block : ∃ present missing : List Nat, (∀ row ∈ present, key row ≠ none) ∧
    (∀ row ∈ missing, key row = none) ∧
    match order with
    | .ascending => rows = present ++ missing
    | .descending => rows = missing ++ present
  /-- The keys of the other rows do not fall, or do not rise. -/
  sorted : rows.Pairwise fun first second ↦ ∀ one two, key first = some one →
    key second = some two →
    match order with
    | .ascending => one.Le two
    | .descending => two.Le one
  /-- Rows that tie, missing ones included, keep their order. -/
  stable : rows.Pairwise fun first second ↦ key first = key second → first < second

section Rows

variable {key : Nat → Option SortKey} {order : SortOrder} {rows : List Nat}

/-- Items of which none follows one of the others come first. -/
theorem eq_filter_append_filter {α : Type} {p : α → Bool} {items : List α}
    (h : items.Pairwise fun first second ↦ p second → p first) :
    items = items.filter p ++ items.filter fun item ↦ !p item := by
  induction items with
  | nil => rfl
  | cons item rest ih =>
    obtain ⟨hfirst, hrest⟩ := List.pairwise_cons.mp h
    by_cases hitem : p item
    · rw [List.filter_cons_of_pos hitem, List.filter_cons_of_neg (by simp [hitem]),
        List.cons_append, ← ih hrest]
    · have hnone : rest.filter p = [] :=
        List.filter_eq_nil_iff.mpr fun other hother hp ↦ hitem (hfirst other hother hp)
      have hall : (rest.filter fun item ↦ !p item) = rest := by
        have hrest := ih hrest
        rw [hnone] at hrest
        exact hrest.symm
      rw [List.filter_cons_of_neg hitem, List.filter_cons_of_pos (by simp [hitem]), hnone, hall]
      rfl

/-- Rows that stand before one another as their keys tell are sorted. -/
theorem sortedRows_of_before {size : Nat} (hperm : rows.Perm (List.range size))
    (h : rows.Pairwise (order.Before key)) : SortedRows key order size rows := by
  refine ⟨hperm, ?_, ?_, h.imp And.right⟩
  · have hpresent : ∀ row ∈ rows.filter fun row ↦ (key row).isSome, key row ≠ none :=
      fun row hrow ↦ Option.isSome_iff_ne_none.mp (List.mem_filter.mp hrow).2
    have hmissing : ∀ row ∈ rows.filter fun row ↦ (key row).isNone, key row = none :=
      fun row hrow ↦ Option.isNone_iff_eq_none.mp (List.mem_filter.mp hrow).2
    refine ⟨_, _, hpresent, hmissing, ?_⟩
    cases order with
    | ascending =>
      have hblock := eq_filter_append_filter (p := fun row ↦ (key row).isSome) <|
        h.imp fun {first second} hbefore hsome ↦ by
          have hle := hbefore.1
          cases hone : key first with
          | some one => rfl
          | none =>
            obtain ⟨two, htwo⟩ := Option.isSome_iff_exists.mp hsome
            simp [SortOrder.AllowsKeys, hone, htwo, SortKey.LeMissingLast] at hle
      simpa only [Option.not_isSome] using hblock
    | descending =>
      have hblock := eq_filter_append_filter (p := fun row ↦ (key row).isNone) <|
        h.imp fun {first second} hbefore hnone ↦ by
          have hle := hbefore.1
          cases hone : key first with
          | none => rfl
          | some one =>
            rw [Option.isNone_iff_eq_none] at hnone
            simp [SortOrder.AllowsKeys, hone, hnone, SortKey.LeMissingLast] at hle
      simpa only [Option.not_isNone] using hblock
  · refine h.imp fun {first second} hbefore one two hone htwo ↦ ?_
    have hle := hbefore.1
    rw [hone, htwo] at hle
    cases order <;> exact hle

/-- The keys leave only one order of the rows. -/
theorem eq_of_pairwise_before {others : List Nat} (hperm : rows.Perm others)
    (h : rows.Pairwise (order.Before key)) (hothers : others.Pairwise (order.Before key)) :
    rows = others := by
  refine hperm.eq_of_pairwise (fun first second _ _ hbefore hafter ↦ ?_) h hothers
  have hkeys : key first = key second := by
    cases order with
    | ascending => exact SortKey.leMissingLast_antisymm hbefore.1 hafter.1
    | descending => exact SortKey.leMissingLast_antisymm hafter.1 hbefore.1
  exact absurd (hbefore.2 hkeys) (Nat.lt_asymm (hafter.2 hkeys.symm))

end Rows

namespace Column

variable {column : Column}

/-- A sortable column lists its rows as their keys tell. -/
theorem exists_sort_before (order : SortOrder) (hvalid : column.data.Valid column.type)
    (hformed : column.data.onLayout fun layout ↦ layout.Formed)
    (hsortable : column.type.supports .sortable) (hsize : column.size ≤ rowLimit) :
    ∃ rows : List Nat, column.sort order = .ok (.ofList (rows.map fun row : Nat ↦ (row : Int))) ∧
      rows.Perm (List.range column.size) ∧ rows.Pairwise (order.Before column.data.sortKey) := by
  obtain ⟨rows, hsort, hperm, hsorted⟩ := exists_sort order hvalid hformed hsortable hsize
  refine ⟨rows, hsort, hperm, hsorted.imp fun {first second} hprecedes ↦ ?_⟩
  have hle := ColumnData.isLE_compareRows_iff hvalid hsortable
  have hallows (first second : Nat) : order.allows column.data.compareRows first second ↔
      order.AllowsKeys (column.data.sortKey first) (column.data.sortKey second) := by
    cases order with
    | ascending => exact hle first second
    | descending => exact hle second first
  refine ⟨(hallows first second).mp hprecedes.1, fun hkeys ↦ hprecedes.2 ?_⟩
  rw [hallows, hkeys]
  cases order <;> exact SortKey.leMissingLast_refl _

/-- Any reachable column sorts its rows stably by their keys, in either order, the missing rows
being those without a key, and no other column with the same keys is sorted in another way. -/
theorem Reachable.sorts_stably (h : column.Reachable) (order : SortOrder) :
    (column.type.supports .sortable → column.size ≤ rowLimit →
      (∃ rows : List Nat,
        column.sort order = .ok (.ofList (rows.map fun row : Nat ↦ (row : Int))) ∧
          SortedRows column.data.sortKey order column.size rows) ∧
      (∀ row, column.data.sortKey row = none ↔ column.data.missingAt row) ∧
      ∀ other : Column, other.Reachable → other.type = column.type →
        other.size = column.size →
        (∀ row < column.size, other.data.sortKey row = column.data.sortKey row) →
        other.sort order = column.sort order) ∧
    (∀ row, ¬column.data.Strays row →
      column.data.sortKey row = (column.data.valueAt row).sortKey) ∧
    (¬column.type.supports .sortable →
      column.sort order = .error (.unsupported "sort" column.type.name)) := by
  refine ⟨fun hsortable hsize ↦ ?_, fun row ↦ ColumnData.sortKey_eq_of_not_strays,
    fun hsortable ↦ ?_⟩
  · obtain ⟨rows, hsort, hperm, hbefore⟩ :=
      exists_sort_before order h.valid h.formed hsortable hsize
    refine ⟨⟨rows, hsort, sortedRows_of_before hperm hbefore⟩,
      ColumnData.sortKey_eq_none_iff h.valid hsortable, ?_⟩
    intro other hother htype hothersize hkeys
    obtain ⟨others, hothersort, hotherperm, hotherbefore⟩ := exists_sort_before order
      hother.valid hother.formed (htype ▸ hsortable) (hothersize ▸ hsize)
    have hrows : others = rows := by
      rw [hothersize] at hotherperm
      refine eq_of_pairwise_before (hotherperm.trans hperm.symm)
        (hotherbefore.imp_of_mem fun {first second} hfirst hsecond hbefore ↦ ?_) hbefore
      have hkey {row : Nat} (hrow : row ∈ others) :
          other.data.sortKey row = column.data.sortKey row :=
        hkeys row (List.mem_range.mp (hotherperm.mem_iff.mp hrow))
      unfold SortOrder.Before at hbefore
      rwa [hkey hfirst, hkey hsecond] at hbefore
    rw [hothersort, hsort, hrows]
  · unfold sort require
    rw [if_neg hsortable]
    rfl

/-- Two nominal columns that read oak, missing, ash, oak: a dense one, and a sparse one over a
dictionary in the other order. -/
theorem Reachable.sorts_stably_two_dictionaries : ∃ first second indices exceptions source,
    Dictionary.ofList ["oak", "ash"] = .ok first ∧ Dictionary.ofList ["ash", "oak"] = .ok second ∧
      IndexArray.ofList .uint2 [1, 0, 2, 1] = .ok indices ∧
      IndexArray.ofList .uint4 [0, 1] = .ok exceptions ∧
      SparseStore.ofExceptions 2 4 [1, 2] exceptions = .ok source ∧
      (∃ rows, SortedRows (ColumnData.categories (.dense indices) ⟨0, first⟩).sortKey .descending 4
        rows) ∧
      sort ⟨.nominal, .categories (.sparse source) ⟨1, second⟩⟩ .descending =
        sort ⟨.nominal, .categories (.dense indices) ⟨0, first⟩⟩ .descending := by
  obtain ⟨first, hfirst, htexts⟩ := @Dictionary.exists_ofList ["oak", "ash"] (by decide) (by decide)
  obtain ⟨second, hsecond, htexts'⟩ :=
    @Dictionary.exists_ofList ["ash", "oak"] (by decide) (by decide)
  replace htexts : first.texts = #["oak", "ash"] := Array.ext' htexts
  replace htexts' : second.texts = #["ash", "oak"] := Array.ext' htexts'
  obtain ⟨indices, hindices⟩ : ∃ indices, IndexArray.ofList .uint2 [1, 0, 2, 1] = .ok indices :=
    ⟨_, rfl⟩
  obtain ⟨exceptions, hexceptions⟩ : ∃ exceptions,
      IndexArray.ofList .uint4 [0, 1] = .ok exceptions := ⟨_, rfl⟩
  obtain ⟨source, hsource⟩ : ∃ source,
      SparseStore.ofExceptions 2 4 [1, 2] exceptions = .ok source := by
    cases hexceptions
    exact ⟨_, rfl⟩
  refine ⟨first, second, indices, exceptions, source, hfirst, hsecond, hindices, hexceptions,
    hsource, ?_⟩
  have hmax : first.maxIndex = 2 := by rw [Dictionary.maxIndex, htexts]; rfl
  have hmax' : second.maxIndex = 2 := by rw [Dictionary.maxIndex, htexts']; rfl
  have hdense : Reachable ⟨.nominal, .categories (.dense indices) ⟨0, first⟩⟩ := by
    have haccepted : (ColumnData.categories (.dense indices) ⟨0, first⟩).Accepted :=
      ⟨trivial, trivial⟩
    refine .ofData haccepted (ofData_of_valid ⟨rfl, ?_, ?_⟩)
    · rw [hmax]
      cases hindices
      rfl
    · rw [hmax]
      cases hindices
      decide
  have hsparse : Reachable ⟨.nominal, .categories (.sparse source) ⟨1, second⟩⟩ := by
    have haccepted : (ColumnData.categories (.sparse source) ⟨1, second⟩).Accepted :=
      ⟨.ofExceptions hsource, trivial⟩
    refine .ofData haccepted (ofData_of_valid ⟨rfl, ?_, ?_⟩)
    · rw [hmax']
      cases hexceptions
      cases hsource
      rfl
    · rw [hmax']
      cases hexceptions
      cases hsource
      decide
  have hsize : (Layout.dense indices).size = 4 := by
    cases hindices
    rfl
  have htwo : second.get? 2 = first.get? 1 := by simp [Dictionary.get?, htexts, htexts']
  have hone : second.get? 1 = first.get? 2 := by simp [Dictionary.get?, htexts, htexts']
  have halike : ∀ row < 4, second.get? ((Layout.sparse source).read row) =
      first.get? ((Layout.dense indices).read row) := by
    cases hindices
    cases hexceptions
    cases hsource
    intro row hrow
    have hrows : row = 0 ∨ row = 1 ∨ row = 2 ∨ row = 3 := by omega
    rcases hrows with rfl | rfl | rfl | rfl
    · exact htwo
    · rfl
    · exact hone
    · exact htwo
  have hsorts := (hdense.sorts_stably .descending).1 rfl
    (Nat.le_trans (Nat.le_of_eq hsize) (by decide))
  obtain ⟨rows, -, hrows⟩ := hsorts.1
  refine ⟨⟨rows, hsize ▸ hrows⟩, hsorts.2.2 _ hsparse rfl ?_ fun row hrow ↦ ?_⟩
  · refine Eq.trans ?_ hsize.symm
    cases hexceptions
    cases hsource
    rfl
  · rw [ColumnData.sortKey_categories, ColumnData.sortKey_categories, halike row (hsize ▸ hrow)]

end Column

end Columnar
