import Columnar.Proofs.Column.Deriving
import Columnar.Proofs.Ingest.Normalizing
import Columnar.Proofs.Ingest.Writing
import Columnar.Proofs.Store.Collecting

/-!
# The column of the values written

`ColumnData.Written` says what data may be made of values: cells with the keys that the values ask
for, dense or over the default that these cells alone determine. Such data is valid
(`Written.valid`), reads the written values in normal form (`Written.valueAt`), and any two of the
same values are alike (`Written.alike`). Finishing a builder makes such data for the demanded layout
(`exists_finish`), and so does the constructor from all values at once for the dense one
(`exists_ofAccepted`).
-/

set_option autoImplicit false
set_option relaxedAutoImplicit false

namespace Columnar

namespace ColumnData

/-- The cost of a densely stored instant of these. -/
def instantCost (instants : List (Option Instant)) : Float :=
  ColumnBuilder.instantBytes (instants.any (InstantStore.nanosOf · != 0))

/-- Data that is made of these values, when a sparse layout must have this share of default rows. -/
inductive Written (minSparsity : Float) (final : FinalLayout) (values : List Value) :
    ColumnType → ColumnData → Prop
  | numbers {type : ColumnType} {layout : Layout NumberStore Binary64}
    (htype : type = .real ∨ type = .integer)
    (h : layout.Keeps (values.map (ColumnBuilder.numberFor type))
      (chosenDefault? (values.map (ColumnBuilder.numberFor type)) minSparsity final 8)) :
    Written minSparsity final values type (.numbers layout)
  | times {layout : Layout TimeStore Int}
    (h : layout.Keeps (values.map Column.nanosOf)
      (chosenDefault? (values.map Column.nanosOf) minSparsity final 8)) :
    Written minSparsity final values .time (.times layout)
  | instants {layout : Layout InstantStore (Option Instant)}
    (h : layout.Keeps (values.map Column.instantOf)
      (chosenDefault? (values.map Column.instantOf) minSparsity final
        (instantCost (values.map Column.instantOf))))
    (hcanonical : layout.prototype.Canonical) :
    Written minSparsity final values .dateTime (.instants layout)
  | categories {layout : Layout IndexArray Nat} {indices : List Nat}
    {dictionary : Shared Dictionary} {format : IndexFormat}
    (hinterned : Column.Interned values indices dictionary.value)
    (hformat : IndexFormat.ofDictionarySize dictionary.value.size = .ok format)
    (h : layout.Keeps indices (chosenDefault? indices minSparsity final format.valueBytes))
    (hkind : layout.prototype.format = format) :
    Written minSparsity final values .nominal (.categories layout dictionary)
  | objects {type : ColumnType} (htype : type = .text ∨ type = .textSet ∨ type = .custom) :
    Written minSparsity final values type (.objects (.dense ⟨values.toArray⟩))

variable {minSparsity : Float} {final : FinalLayout} {values : List Value} {type : ColumnType}
  {data : ColumnData}

theorem Written.holds (h : data.Written minSparsity final values type) : data.holds type := by
  cases h with
  | numbers htype => rcases htype with rfl | rfl <;> rfl
  | times => rfl
  | instants => rfl
  | categories => rfl
  | objects htype => rcases htype with rfl | rfl | rfl <;> rfl

theorem Written.size (h : data.Written minSparsity final values type) :
    data.size = values.length := by
  cases h with
  | numbers _ h => exact h.size.trans (List.length_map _)
  | times h => exact h.size.trans (List.length_map _)
  | instants h => exact h.size.trans (List.length_map _)
  | categories hinterned _ h => exact h.size.trans hinterned.length_eq
  | objects => rfl

/-! ### Reading -/

theorem getElem?_map_of {C : Type} {cell : Value → C} {row : Nat} {value : Value}
    (h : values[row]? = some value) : (values.map cell)[row]? = some (cell value) := by
  rw [List.getElem?_map, h, Option.map_some]

/-- Every row reads the value written there, in normal form. -/
theorem Written.valueAt (h : data.Written minSparsity final values type)
    (haccepts : ∀ value ∈ values, type.accepts value) {row : Nat} {value : Value}
    (hrow : values[row]? = some value) : data.valueAt row = type.normalize value := by
  have haccept := haccepts value (List.mem_of_getElem? hrow)
  cases h with
  | @numbers type layout htype h =>
    have hkey := h.key_read (getElem?_map_of hrow)
    rw [← ColumnType.ofNumber_numberFor htype haccept]
    exact Binary64.ofNumber_eq_iff.mpr hkey
  | times h =>
    have hkey : _ = Column.nanosOf value := h.key_read (getElem?_map_of hrow)
    rw [ColumnType.normalize_of_accepts (by decide) haccept]
    exact (congrArg Column.timeValue hkey).trans (ColumnType.timeValue_nanosOf haccept)
  | instants h =>
    have hkey : _ = Column.instantOf value := h.key_read (getElem?_map_of hrow)
    rw [ColumnType.normalize_of_accepts (by decide) haccept]
    exact (congrArg Value.ofInstant? hkey).trans (ColumnType.ofInstant?_instantOf haccept)
  | @categories layout indices dictionary format hinterned _ h =>
    have hcategories := congrArg (fun categories ↦ categories[row]?) hinterned.categories
    simp only [List.getElem?_map, hrow, Option.map_some] at hcategories
    obtain ⟨index, hindex, hvalue⟩ := Option.map_eq_some_iff.mp hcategories
    have hkey : layout.read row = index := h.key_read hindex
    rw [ColumnType.normalize_of_accepts (by decide) haccept]
    show Column.categoryValue dictionary.value (layout.read row) = value
    rw [hkey, hvalue, ColumnType.categoryOf_eq haccept]
  | objects htype =>
    have hother : type ≠ .real ∧ type ≠ .integer := by
      rcases htype with rfl | rfl | rfl <;> decide
    rw [ColumnType.normalize_of_accepts hother haccept]
    show (values.toArray[row]?).getD Cell.missing = value
    rw [List.getElem?_toArray, hrow, Option.getD_some]

/-! ### Validity -/

/-- A stored cell has the key of a written one, or is missing. -/
theorem key_mem_or_missing {S C : Type} [Tracked C] [Store S C] {layout : Layout S C}
    {cells : List C} {valueBytes : Float}
    (h : layout.Keeps cells (chosenDefault? cells minSparsity final valueBytes)) {cell : C}
    (hcell : cell ∈ Column.storedCells layout) :
    Tracked.key cell ∈ cells.map Tracked.key ∨
      Tracked.key cell = Tracked.key (Cell.missing : C) := by
  rcases h.key_stored hcell with hmem | hdefault
  · exact .inl hmem
  · obtain ⟨default, hchosen, hkey⟩ := Option.map_eq_some_iff.mp hdefault
    rw [← hkey]
    rcases chosenDefault?_mem hchosen with hmaximum | ⟨-, rfl⟩
    · exact .inl (List.mem_map_of_mem hmaximum.mem)
    · exact .inr rfl

/-- A layout of indices of a dictionary is valid with it, in the format of the dictionary. -/
theorem valid_categories {layout : Layout IndexArray Nat} {indices : List Nat}
    {dictionary : Shared Dictionary} {format : IndexFormat} {valueBytes : Float}
    (hformat : IndexFormat.ofDictionarySize dictionary.value.size = .ok format)
    (hindices : ∀ index ∈ indices, index ≤ dictionary.value.maxIndex)
    (h : layout.Keeps indices (chosenDefault? indices minSparsity final valueBytes))
    (hkind : layout.prototype.format = format) :
    (categories layout dictionary).Valid .nominal := by
  refine ⟨rfl, ?_, ?_⟩
  · rw [hkind]
    exact IndexFormat.fits_of_ofDictionarySize hformat
  · intro index hindex
    rcases key_mem_or_missing h hindex with hmem | hkey
    · obtain ⟨other, hother, hkey⟩ := List.mem_map.mp hmem
      have heq : other = index := hkey
      rw [← heq]
      exact hindices other hother
    · have heq : index = 0 := hkey
      rw [heq]
      exact Nat.zero_le _

theorem Written.valid (h : data.Written minSparsity final values type)
    (haccepts : ∀ value ∈ values, type.accepts value) : data.Valid type := by
  refine ⟨h.holds, ?_⟩
  cases h with
  | @numbers type layout htype h =>
    intro hinteger number hnumber hfinite
    have hmissing {other : Binary64} (hkey : other.key = number.key) : other = number := by
      rcases Binary64.eq_or_isNaN_of_key_eq hkey with heq | ⟨-, hnan⟩
      · exact heq
      · rw [Binary64.isNaN_eq_false_of_isFinite hfinite] at hnan
        contradiction
    rcases key_mem_or_missing h hnumber with hmem | hkey
    · obtain ⟨other, hother, hkey⟩ := List.mem_map.mp hmem
      obtain ⟨value, -, rfl⟩ := List.mem_map.mp hother
      have heq := hmissing hkey
      have hround : ColumnBuilder.numberFor type value = (Column.numberOf value).round := by
        rw [ColumnBuilder.numberFor, if_pos hinteger]
      rw [hround] at heq
      rw [← heq] at hfinite ⊢
      exact Binary64.isIntegral_of_isFinite_round hfinite
    · have heq : Binary64.nan = number := hmissing hkey.symm
      rw [← heq] at hfinite
      exact absurd hfinite (by decide)
  | times => trivial
  | instants => trivial
  | @categories layout indices dictionary format hinterned hformat h hkind =>
    exact (valid_categories hformat hinterned.le_maxIndex h hkind).stores
  | objects htype =>
    intro value hvalue
    have hmem : value ∈ Store.toList (ObjectStore.mk values.toArray) := hvalue
    rw [ObjectStore.toList_mk] at hmem
    exact haccepts value hmem

/-! ### Columns of the same values -/

/-- Layouts that are alike cell by cell hold the same cells. -/
theorem toList_prototype_of_alike {S C : Type} [Cell C] [Store S C] {first second : Layout S C}
    (h : first.Alike id second) :
    Store.toList first.prototype = Store.toList second.prototype := by
  cases h with
  | @dense store other hcells =>
    have hlist : Store.toList store = Store.toList other := by simpa using hcells
    exact hlist
  | @sparse source other _ _ _ hexceptions =>
    have hlist : Store.toList source.exceptions = Store.toList other.exceptions := by
      simpa using hexceptions
    exact hlist

/-- Data made of the same values is alike. -/
theorem Written.alike {other : ColumnData} (h : data.Written minSparsity final values type)
    (hother : other.Written minSparsity final values type) : data.Alike other := by
  cases h with
  | numbers htype h =>
    cases hother with
    | numbers _ hother => exact .numbers (h.alike hother)
    | times => simp at htype
    | instants => simp at htype
    | categories => simp at htype
    | objects htype' => rcases htype with rfl | rfl <;> simp at htype'
  | times h =>
    cases hother with
    | numbers htype => simp at htype
    | times hother => exact .times (h.alike hother)
    | objects htype => simp at htype
  | instants h hcanonical =>
    cases hother with
    | numbers htype => simp at htype
    | instants hother hcanonical' =>
      have halike := h.alike hother
      refine .instants halike ?_
      rw [hcanonical, hcanonical', toList_prototype_of_alike halike]
    | objects htype => simp at htype
  | @categories layout indices dictionary format hinterned hformat h hkind =>
    cases hother with
    | numbers htype => simp at htype
    | @categories layout' indices' dictionary' format' hinterned' hformat' h' hkind' =>
      obtain ⟨rfl, hdictionary⟩ := hinterned.unique hinterned'
      rw [hdictionary] at hformat
      have hformats : format = format' := Except.ok.inj (hformat.symm.trans hformat')
      subst hformats
      exact .categories (h.alike h') (hkind.trans hkind'.symm)
        (congrArg Dictionary.texts hdictionary)
    | objects htype => simp at htype
  | objects htype =>
    cases hother with
    | numbers htype' => rcases htype' with rfl | rfl <;> simp at htype
    | times => simp at htype
    | instants => simp at htype
    | categories => simp at htype
    | objects => exact .objects (.dense rfl)

end ColumnData

/-! ### Making columns -/

namespace ColumnBuilder

variable {type : ColumnType} {options : IngestOptions} {values : List Value}
  {builder : ColumnBuilder}

/-- Cells whose key is the cell itself are known by their keys. -/
theorem eq_of_map_id {C : Type} {kept cells : List C} (h : kept.map id = cells.map id) :
    kept = cells := by
  simpa using h

/-- Times that come from values are nanoseconds of a day, or missing. -/
theorem ofList_nanosOf (values : List Value) :
    TimeStore.ofList (values.map Column.nanosOf) =
      .ok ⟨(values.map Column.nanosOf).toArray⟩ := by
  have hfind : ((values.map Column.nanosOf).find? fun cell ↦
      cell != TimeOfDay.missingNanos && (TimeOfDay.ofNanos? cell).isNone) = none := by
    rw [List.find?_eq_none]
    intro cell hcell
    obtain ⟨value, -, rfl⟩ := List.mem_map.mp hcell
    cases value with
    | time time =>
      have hvalid : TimeOfDay.ofNanos? (Column.nanosOf (.time time)) = some time :=
        TimeOfDay.ofNanos?_eq_some_iff.mpr rfl
      simp [hvalid]
    | _ => simp [Column.nanosOf]
  unfold TimeStore.ofList
  simp only [hfind]

theorem storable_numbers (cells : List Binary64) :
    Storable (NumberStore.mk #[]) (fun buffer ↦ .ok ⟨buffer⟩) (fun _ ↦ True) cells where
  exists_dense kept _ := by
    refine ⟨⟨kept.toArray⟩, ?_, NumberStore.toList_mk kept, trivial⟩
    rw [Tracked.appendAll_number]
  takes _ _ := ⟨_, rfl⟩
  of_pack _ := trivial

theorem storable_times (values : List Value) :
    Storable (TimeStore.mk #[]) (fun buffer : Array Int ↦ TimeStore.ofList buffer.toList)
      (fun _ ↦ True) (values.map Column.nanosOf) where
  exists_dense kept hkeys := by
    rw [eq_of_map_id hkeys, Tracked.appendAll_time]
    exact ⟨_, ofList_nanosOf values, TimeStore.toList_mk _, trivial⟩
  takes _ _ := ⟨_, rfl⟩
  of_pack _ := trivial

theorem storable_instants (cells : List (Option Instant)) :
    Storable (InstantStore.ofInstants 0 [])
      (fun buffer : Array (Option Instant) ↦ .ok (.ofInstants buffer.size buffer.toList))
      InstantStore.Canonical cells where
  exists_dense kept _ := by
    refine ⟨.ofInstants kept.length kept, ?_, InstantStore.toList_ofInstants kept,
      InstantStore.canonical_ofInstants _ _⟩
    rw [Tracked.appendAll_instant]
    simp
  takes _ _ := ⟨_, rfl⟩
  of_pack hpack := by
    cases hpack
    exact InstantStore.canonical_ofInstants _ _

/-- Indices are stored in any format that holds them all. -/
theorem storable_indices {indices : List Nat} {format : IndexFormat}
    (haccepts : ∀ index ∈ indices, Tracked.Accepts index)
    (hindices : ∀ index ∈ indices, format.fits index) :
    Storable (IndexArray.empty format) (fun buffer : IndexArray ↦ buffer.widen format)
      (fun array ↦ array.format = format) indices where
  exists_dense kept hkeys := by
    rw [eq_of_map_id hkeys]
    have hlist : (Tracked.appendAll Tracked.emptyBuffer indices : IndexArray).toList = indices :=
      Tracked.contents_appendAll haccepts
    obtain ⟨result, hwiden, hresult, hformat⟩ := IndexArray.exists_widen
      (Tracked.bits_appendAll_le hindices) (by rwa [hlist])
    refine ⟨result, hwiden, ?_, hformat⟩
    rw [IndexArray.toList_eq, hresult, hlist]
  takes index hindex := by
    obtain ⟨other, hother, hkey⟩ := List.mem_map.mp hindex
    have heq : other = index := hkey
    have hempty : (IndexArray.empty format).format = format := IndexCells.format_zeros format 0
    rw [IndexArray.takes_iff, hempty, ← heq]
    exact hindices other hother
  of_pack hpack := (IndexArray.of_pack hpack).2.1.trans (IndexCells.format_zeros format 0)

/-- Finishing makes valid data of the values written. -/
theorem exists_finish (h : builder.Holds options values type) (hlength : values.length ≤ rowLimit)
    (haccepts : ∀ value ∈ values, type.accepts value) (final : FinalLayout) (fresh : Token) :
    ∃ data, builder.finish final fresh = .ok ⟨type, data⟩ ∧
      data.Written options.minSparsity final values type := by
  have hcells {C : Type} (cell : Value → C) : (values.map cell).length ≤ rowLimit := by
    rwa [List.length_map]
  have hgate {data : ColumnData} (hwritten : data.Written options.minSparsity final values type) :
      Column.ofData type data = .ok ⟨type, data⟩ :=
    Column.ofData_of_valid (hwritten.valid haccepts)
  cases h with
  | @numbers type cells htype hholds =>
    obtain ⟨accumulated, layout, hfinish, hlayout, hkeeps, -⟩ := exists_layout hholds
      (fun cell _ ↦ Tracked.accepts_number cell) (hcells _) (storable_numbers _) final 8
    have hwritten : (ColumnData.numbers layout).Written options.minSparsity final values type :=
      .numbers htype hkeeps
    refine ⟨_, ?_, hwritten⟩
    simp only [finish, hfinish, Outcome.ok_bind]
    exact Outcome.bind_eq_ok_iff.mpr ⟨layout, hlayout, hgate hwritten⟩
  | @times cells hholds =>
    obtain ⟨accumulated, layout, hfinish, hlayout, hkeeps, -⟩ := exists_layout hholds
      (fun cell _ ↦ Tracked.accepts_time cell) (hcells _) (storable_times values) final 8
    have hwritten : (ColumnData.times layout).Written options.minSparsity final values .time :=
      .times hkeeps
    refine ⟨_, ?_, hwritten⟩
    simp only [finish, hfinish, Outcome.ok_bind]
    exact Outcome.bind_eq_ok_iff.mpr ⟨layout, hlayout, hgate hwritten⟩
  | @instants cells hholds =>
    obtain ⟨accumulated, layout, hfinish, hlayout, hkeeps, hcanonical⟩ := exists_layout hholds
      (fun cell _ ↦ Tracked.accepts_instant cell) (hcells _) (storable_instants _) final
      (instantBytes ((values.map Column.instantOf).any (InstantStore.nanosOf · != 0)))
    have hwritten :
        (ColumnData.instants layout).Written options.minSparsity final values .dateTime :=
      .instants hkeeps hcanonical
    refine ⟨_, ?_, hwritten⟩
    simp only [finish, hfinish, Outcome.ok_bind]
    exact Outcome.bind_eq_ok_iff.mpr ⟨layout, hlayout, hgate hwritten⟩
  | @categories indices dictionary cells hinterned hholds =>
    obtain ⟨format, hformat, hfits⟩ := exists_format hinterned hlength
    have hindices : ∀ index ∈ indices, format.fits index := fun index hindex ↦
      IndexFormat.fits_of_le hfits (hinterned.le_maxIndex index hindex)
    have haccepted := accepts_of_interned hinterned hlength
    obtain ⟨accumulated, layout, hfinish, hlayout, hkeeps, hkind⟩ := exists_layout hholds haccepted
      (hinterned.length_eq ▸ hlength) (storable_indices haccepted hindices) final format.valueBytes
    have hwritten : (ColumnData.categories layout ⟨fresh, dictionary⟩).Written
        options.minSparsity final values .nominal := .categories hinterned hformat hkeeps hkind
    refine ⟨_, ?_, hwritten⟩
    simp only [finish, hformat, hfinish, Outcome.ok_bind]
    exact Outcome.bind_eq_ok_iff.mpr ⟨layout, hlayout, hgate hwritten⟩
  | objects htype =>
    have hwritten : (ColumnData.objects (.dense ⟨values.toArray⟩)).Written options.minSparsity final
        values type := .objects htype
    exact ⟨_, hgate hwritten, hwritten⟩

end ColumnBuilder

/-- All values at once make dense data of them. -/
theorem Column.exists_ofAccepted {type : ColumnType} {values : List Value}
    (hlength : values.length ≤ rowLimit) (haccepts : ∀ value ∈ values, type.accepts value)
    (minSparsity : Float) (fresh : Token) :
    ∃ data, Column.ofAccepted type values fresh = .ok ⟨type, data⟩ ∧
      data.Written minSparsity .dense values type := by
  cases type with
  | real =>
    refine ⟨_, rfl, .numbers (.inl rfl) (.dense ?_ rfl)⟩
    exact congrArg (List.map Tracked.key) (NumberStore.toList_mk _)
  | integer =>
    refine ⟨_, rfl, .numbers (.inr rfl) (.dense ?_ rfl)⟩
    rw [NumberStore.toList_mk]
    simp only [List.map_map]
    rfl
  | nominal =>
    obtain ⟨indices, dictionary, hinterned⟩ := Column.exists_interned hlength
    obtain ⟨format, hformat, hfits⟩ := ColumnBuilder.exists_format hinterned hlength
    have hzeros : (IndexArray.zeros format indices.length).format = format :=
      IndexCells.format_zeros format _
    obtain ⟨array, harray⟩ := @IndexArray.exists_store (.zeros format indices.length) indices
      (Nat.le_refl _) fun index hindex ↦ by
        rw [hzeros]
        exact IndexFormat.fits_of_le hfits (hinterned.le_maxIndex index hindex)
    obtain ⟨hsize, hkind, -, hlist⟩ := IndexArray.of_store (Nat.le_refl _) harray
    have hwritten : (ColumnData.categories (.dense array) ⟨fresh, dictionary⟩).Written minSparsity
        .dense values .nominal := by
      refine .categories hinterned hformat (.dense ?_ rfl) (hkind.trans hzeros)
      rw [IndexArray.toList_eq, hlist, IndexArray.toList_zeros, List.drop_replicate, Nat.sub_self,
        List.replicate_zero, List.append_nil]
    refine ⟨_, ?_, hwritten⟩
    have hlisted : IndexArray.ofList format indices = .ok array := harray
    have hgate := ofData_of_valid (hwritten.valid haccepts)
    unfold ofAccepted
    simp only [hinterned.run, Attempt.outcome, Attempt.state, Outcome.ok_bind, hformat, hlisted]
    exact hgate
  | time =>
    refine ⟨.times (.dense ⟨(values.map nanosOf).toArray⟩), ?_, .times (.dense ?_ rfl)⟩
    · unfold ofAccepted
      rw [ColumnBuilder.ofList_nanosOf]
      rfl
    · exact congrArg (List.map Tracked.key) (TimeStore.toList_mk _)
  | dateTime =>
    refine ⟨_, rfl, .instants (.dense ?_ rfl) (InstantStore.canonical_ofInstants _ _)⟩
    rw [← List.length_map Column.instantOf, InstantStore.toList_ofInstants]
  | text => exact ⟨_, rfl, .objects (.inl rfl)⟩
  | textSet => exact ⟨_, rfl, .objects (.inr (.inl rfl))⟩
  | custom => exact ⟨_, rfl, .objects (.inr (.inr rfl))⟩

end Columnar
