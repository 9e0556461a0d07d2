import Columnar.Column.Derive
import Columnar.Proofs.Column.Validity

/-!
# Deriving columns

A column derived through a mapping has the type of its source, as many rows as the mapping, and
reads in every row the value that the mapping shows (`exists_map`). It is valid again, so one
derivation can follow another. Deriving through a cache is deriving with another token
(`mapCached_eq`), provided that the cache answers with the composition asked for.
-/

set_option autoImplicit false
set_option relaxedAutoImplicit false

namespace Columnar

/-! ### Cells that agree read as the same value -/

theorem Binary64.ofNumber_eq_of_same {first second : Binary64} (h : first.same second) :
    Value.ofNumber first = Value.ofNumber second := by
  simp only [Binary64.same, Bool.or_eq_true, beq_iff_eq, Bool.and_eq_true] at h
  rcases h with hbits | ⟨hfirst, hsecond⟩
  · have heq : first = second := by
      cases first
      cases second
      exact congrArg Binary64.mk hbits
    rw [heq]
  · simp [Value.ofNumber, hfirst, hsecond]

/-- Values other than numbers are equal only to themselves. -/
theorem Value.eq_of_equal {first second : Value} (hnumber : first.asNumber = none)
    (h : first.equal second) : first = second := by
  cases first with
  | number value => contradiction
  | _ => simpa [Value.equal] using h

/-- Every column has room for missing values. -/
theorem ColumnType.accepts_missing (type : ColumnType) : type.accepts .missing := by
  cases type <;> rfl

namespace Layout

section

variable {S C : Type} [Cell C] [Store S C]

/-- The value of a derived row, for a reading that agreeing cells share. -/
theorem Shows.value_read {derived layout : Layout S C} {mapping : Mapping}
    (h : derived.Shows layout mapping) (value : C → Value)
    (hmissing : value Cell.missing = .missing)
    (hsame : ∀ row cell, Cell.same (layout.shown mapping row) cell →
      value (layout.shown mapping row) = value cell)
    {row : Nat} (hrow : row < mapping.size) :
    value (derived.read row) =
      match mapping.resolve? row layout.size with
      | some (some source) => value (layout.read source)
      | _ => .missing := by
  have hshown : value (derived.read row) = value (layout.shown mapping row) := by
    rcases h.read row hrow with heq | hagrees
    · rw [heq]
    · exact (hsame row _ hagrees).symm
  rw [hshown, shown]
  cases mapping.resolve? row layout.size with
  | none => exact hmissing
  | some shown =>
    cases shown with
    | none => exact hmissing
    | some source => rfl

variable [LawfulStore S]

/-- Every row reads missing or one of the stored cells. -/
theorem read_eq_missing_or_mem (layout : Layout S C) (row : Nat) :
    layout.read row = Cell.missing ∨ layout.read row ∈ Column.storedCells layout := by
  cases layout with
  | dense store => exact Store.read_eq_missing_or_mem store row
  | mapped store mapping => exact Store.readThrough_eq_missing_or_mem store mapping.value row
  | sparse source =>
    show source.read row = _ ∨ source.read row ∈ source.default :: Store.toList source.exceptions
    unfold SparseStore.read
    split
    · exact (Store.read_eq_missing_or_mem source.exceptions _).imp_right (List.mem_cons_of_mem _)
    · exact .inr List.mem_cons_self

theorem shown_eq_missing_or_mem (layout : Layout S C) (mapping : Mapping) (row : Nat) :
    layout.shown mapping row = Cell.missing ∨
      layout.shown mapping row ∈ Column.storedCells layout := by
  unfold shown
  split
  · exact layout.read_eq_missing_or_mem _
  · exact .inl rfl

omit [LawfulStore S] in
/-- What is derived from a sparse layout is no view. -/
theorem mapping?_of_ofSparse {source : SparseStore S C} {mapping : Mapping} {derived : Layout S C}
    (h : ofSparse source mapping = .ok derived) : derived.mapping? = none := by
  obtain ⟨exceptions, -, h⟩ := Outcome.bind_eq_ok_iff.mp h
  split at h
  · obtain ⟨sparse, -, h⟩ := Outcome.bind_eq_ok_iff.mp h
    cases h
    rfl
  · obtain ⟨packed, -, h⟩ := Outcome.bind_eq_ok_iff.mp h
    cases h
    rfl

omit [LawfulStore S] in
/-- The mapping of a derived view is the one it was derived through, or the composition. -/
theorem mapping?_of_map {layout derived : Layout S C} {mapping : Shared Mapping} {view : Bool}
    {fresh : Token} (h : layout.map mapping view fresh = .ok derived) {shown : Shared Mapping}
    (hshown : derived.mapping? = some shown) :
    shown = mapping ∨ ∃ current, layout.mapping? = some current ∧
      shown = ⟨fresh, current.value.compose mapping.value⟩ := by
  have hviewed (store : S) (through : Shared Mapping)
      (hviewed : (viewOrGather store through view : Layout S C).mapping? = some shown) :
      shown = through := by
    cases view with
    | true => exact (Option.some.inj hviewed).symm
    | false => contradiction
  cases layout with
  | dense store =>
    cases h
    exact .inl (hviewed store mapping hshown)
  | mapped store current =>
    cases h
    exact .inr ⟨current, rfl, hviewed store _ hshown⟩
  | sparse source =>
    rw [mapping?_of_ofSparse h] at hshown
    contradiction

end

end Layout

namespace ColumnData

/-- The value of one row. -/
def valueAt (data : ColumnData) (row : Nat) : Value :=
  match data with
  | numbers layout => .ofNumber (layout.read row)
  | times layout => Column.timeValue (layout.read row)
  | instants layout => .ofInstant? (layout.read row)
  | categories layout dictionary => Column.categoryValue dictionary.value (layout.read row)
  | objects layout => layout.read row

def size (data : ColumnData) : Nat := data.onLayout fun layout ↦ layout.size

def mapping? (data : ColumnData) : Option (Shared Mapping) :=
  data.onLayout fun layout ↦ layout.mapping?

section OnLayout

variable {data : ColumnData} {P Q : {S C : Type} → [Cell C] → [Store S C] → Layout S C → Prop}

/-- What follows for any layout over a lawful store follows for the layout of the data. -/
theorem onLayout_imp (hdata : data.onLayout P)
    (h : ∀ {S C : Type} [Cell C] [Store S C] [LawfulStore S] (layout : Layout S C),
      P layout → Q layout) : data.onLayout Q := by
  cases data <;> exact h _ hdata

theorem onLayout_and (hfirst : data.onLayout P) (hsecond : data.onLayout Q) :
    data.onLayout fun layout ↦ P layout ∧ Q layout := by
  cases data <;> exact ⟨hfirst, hsecond⟩

end OnLayout

/-- The layout of the derived data shows the layout of the source. -/
inductive Shows (mapping : Mapping) : (derived source : ColumnData) → Prop
  | numbers {derived layout : Layout NumberStore Binary64} (h : derived.Shows layout mapping) :
    Shows mapping (numbers derived) (numbers layout)
  | times {derived layout : Layout TimeStore Int} (h : derived.Shows layout mapping) :
    Shows mapping (times derived) (times layout)
  | instants {derived layout : Layout InstantStore (Option Instant)}
    (h : derived.Shows layout mapping) : Shows mapping (instants derived) (instants layout)
  | categories {derived layout : Layout IndexArray Nat} {dictionary : Shared Dictionary}
    (h : derived.Shows layout mapping) :
    Shows mapping (categories derived dictionary) (categories layout dictionary)
  | objects {derived layout : Layout ObjectStore Value} (h : derived.Shows layout mapping) :
    Shows mapping (objects derived) (objects layout)

variable {mapping : Mapping} {derived source : ColumnData} {type : ColumnType}

theorem Shows.size (h : Shows mapping derived source) : derived.size = mapping.size := by
  cases h with
  | numbers h => exact h.size
  | times h => exact h.size
  | instants h => exact h.size
  | categories h => exact h.size
  | objects h => exact h.size

/-- A column of objects stores no numbers. -/
theorem asNumber_eq_none_of_accepts {layout : Layout ObjectStore Value}
    (hholds : (objects layout).holds type) {value : Value} (h : type.accepts value) :
    value.asNumber = none := by
  cases type <;> first | contradiction | (cases value <;> first | rfl | contradiction)

/-- Every row reads the value of the row that the mapping shows, and missing where it shows none. -/
theorem Shows.valueAt (h : Shows mapping derived source) (hvalid : source.Valid type) {row : Nat}
    (hrow : row < mapping.size) :
    derived.valueAt row =
      match mapping.resolve? row source.size with
      | some (some place) => source.valueAt place
      | _ => .missing := by
  cases h with
  | numbers h =>
    exact h.value_read .ofNumber rfl (fun _ _ hsame ↦ Binary64.ofNumber_eq_of_same hsame) hrow
  | times h =>
    exact h.value_read Column.timeValue rfl (fun _ _ hsame ↦ by rw [eq_of_beq hsame]) hrow
  | instants h =>
    exact h.value_read .ofInstant? rfl (fun _ _ hsame ↦ by rw [eq_of_beq hsame]) hrow
  | @categories derived layout dictionary h =>
    exact h.value_read (Column.categoryValue dictionary.value) rfl
      (fun _ _ hsame ↦ by rw [eq_of_beq hsame]) hrow
  | @objects derived layout h =>
    refine h.value_read (fun value ↦ value) rfl ?_ hrow
    intro row cell hsame
    have haccepts : type.accepts (layout.shown mapping row) := by
      rcases layout.shown_eq_missing_or_mem mapping row with hmissing | hmem
      · rw [hmissing]
        exact type.accepts_missing
      · exact hvalid.stores _ hmem
    exact Value.eq_of_equal (asNumber_eq_none_of_accepts hvalid.holds haccepts) hsame

/-- The layout of the derived data stores only what the layout of the source stores. -/
inductive StoresFrom : (derived source : ColumnData) → Prop
  | numbers {derived layout : Layout NumberStore Binary64} (h : derived.StoresFrom layout) :
    StoresFrom (numbers derived) (numbers layout)
  | times {derived layout : Layout TimeStore Int} (h : derived.StoresFrom layout) :
    StoresFrom (times derived) (times layout)
  | instants {derived layout : Layout InstantStore (Option Instant)}
    (h : derived.StoresFrom layout) : StoresFrom (instants derived) (instants layout)
  | categories {derived layout : Layout IndexArray Nat} {dictionary : Shared Dictionary}
    (h : derived.StoresFrom layout) :
    StoresFrom (categories derived dictionary) (categories layout dictionary)
  | objects {derived layout : Layout ObjectStore Value} (h : derived.StoresFrom layout) :
    StoresFrom (objects derived) (objects layout)

theorem StoresFrom.holds (h : StoresFrom derived source) (hholds : source.holds type) :
    derived.holds type := by
  cases h with
  | _ => cases type <;> first | rfl | contradiction

/-- Data that stores only what valid data stores is valid. -/
theorem StoresFrom.valid (h : StoresFrom derived source) (hvalid : source.Valid type) :
    derived.Valid type := by
  have hholds := h.holds hvalid.holds
  cases h with
  | numbers h =>
    refine ⟨hholds, ?_⟩
    intro hinteger number hnumber hfinite
    rcases h.stored number hnumber with rfl | hmem
    · exact absurd hfinite (by decide)
    · exact hvalid.stores hinteger number hmem hfinite
  | times h => exact ⟨hholds, trivial⟩
  | instants h => exact ⟨hholds, trivial⟩
  | @categories derived layout dictionary h =>
    have hstores := hvalid.stores
    refine ⟨hholds, ?_, ?_⟩
    · have htakes := h.takes dictionary.value.maxIndex
      rw [IndexArray.takes_iff, IndexArray.takes_iff] at htakes
      exact htakes.mpr hstores.1
    · intro index hindex
      rcases h.stored index hindex with rfl | hmem
      · exact Nat.zero_le _
      · exact hstores.2 index hmem
  | objects h =>
    refine ⟨hholds, ?_⟩
    intro value hvalue
    rcases h.stored value hvalue with rfl | hmem
    · exact type.accepts_missing
    · exact hvalid.stores value hmem

theorem Shows.storesFrom (h : Shows mapping derived source) : StoresFrom derived source := by
  cases h with
  | numbers h => exact .numbers h.storesFrom
  | times h => exact .times h.storesFrom
  | instants h => exact .instants h.storesFrom
  | categories h => exact .categories h.storesFrom
  | objects h => exact .objects h.storesFrom

/-- Derived data is valid for the type of its source. -/
theorem Shows.valid (h : Shows mapping derived source) (hvalid : source.Valid type) :
    derived.Valid type := h.storesFrom.valid hvalid

/-- The default of sparse packed indices fits the format of the exceptions. -/
def DefaultFits : ColumnData → Prop
  | categories (.sparse source) _ => source.exceptions.format.fits source.default
  | _ => True

/-- The format of valid categories holds the dictionary, and the default is one of its indices. -/
theorem Valid.defaultFits {data : ColumnData} (h : data.Valid type) : data.DefaultFits := by
  cases data with
  | categories layout dictionary =>
    cases layout with
    | sparse source =>
      obtain ⟨hformat, hstored⟩ := h.stores
      have hdefault : source.default ≤ dictionary.value.maxIndex := hstored _ List.mem_cons_self
      exact IndexFormat.fits_iff.mpr (Nat.le_trans hdefault (IndexFormat.fits_iff.mp hformat))
    | _ => trivial
  | _ => trivial

/-- Only a format can keep a default out. -/
theorem DefaultFits.takesDefault {data : ColumnData} (h : data.DefaultFits) :
    data.onLayout fun layout ↦ layout.TakesDefault := by
  have hany {S C : Type} [Cell C] [Store S C] (layout : Layout S C)
      (h : ∀ (store : S) (cell : C), Store.Takes store cell) : layout.TakesDefault := by
    cases layout with
    | sparse source => exact h _ _
    | _ => trivial
  cases data with
  | numbers layout => exact hany layout fun _ _ ↦ ⟨_, rfl⟩
  | times layout => exact hany layout fun _ _ ↦ ⟨_, rfl⟩
  | instants layout => exact hany layout fun _ _ ↦ ⟨_, rfl⟩
  | objects layout => exact hany layout fun _ _ ↦ ⟨_, rfl⟩
  | categories layout dictionary =>
    cases layout with
    | sparse source => exact IndexArray.takes_iff.mpr h
    | _ => trivial

theorem Valid.takesDefault {data : ColumnData} (h : data.Valid type) :
    data.onLayout fun layout ↦ layout.TakesDefault := h.defaultFits.takesDefault

end ColumnData

namespace Column

theorem get_eq (column : Column) (row : Nat) :
    column.get row =
      if column.size ≤ row then .error (.outOfBounds row column.size)
      else .ok (column.data.valueAt row) := rfl

theorem get_of_lt {column : Column} {row : Nat} (h : row < column.size) :
    column.get row = .ok (column.data.valueAt row) := by
  rw [get_eq, if_neg (Nat.not_le.mpr h)]

/-- A row of a nominal column reads an index of its dictionary. -/
theorem read_lt_size {type : ColumnType} {layout : Layout IndexArray Nat}
    {dictionary : Shared Dictionary} (hvalid : (ColumnData.categories layout dictionary).Valid type)
    (row : Nat) : layout.read row < dictionary.value.size := by
  rcases layout.read_eq_missing_or_mem row with hmissing | hmem
  · rw [hmissing]
    exact Nat.succ_pos _
  · exact Nat.lt_succ_of_le (hvalid.stores.2 _ hmem)

/-- An integer column reads integral numbers, infinities and NaN. -/
theorem read_isIntegral {layout : Layout NumberStore Binary64}
    (hvalid : (ColumnData.numbers layout).Valid .integer) {row : Nat}
    (hfinite : (layout.read row).isFinite) : (layout.read row).isIntegral := by
  rcases layout.read_eq_missing_or_mem row with hmissing | hmem
  · rw [hmissing] at hfinite
    exact absurd hfinite (by decide)
  · exact hvalid.stores rfl _ hmem hfinite

/-- Deriving a layout that takes its default, put into the data of a column. -/
theorem exists_traverse {S C : Type} [Cell C] [Store S C] [LawfulStore S] {layout : Layout S C}
    {mapping : Shared Mapping} (view : Bool) (fresh : Token)
    (hsize : mapping.value.size ≤ rowLimit) (hdefault : layout.TakesDefault)
    (wrap : Layout S C → ColumnData)
    (hwrap : ∀ derived : Layout S C, derived.Shows layout mapping.value →
      ColumnData.Shows mapping.value (wrap derived) (wrap layout)) :
    ∃ derived, wrap <$> layout.map mapping view fresh = .ok derived ∧
      ColumnData.Shows mapping.value derived (wrap layout) := by
  obtain ⟨derived, hmap, hshows⟩ := Layout.exists_map view fresh hsize hdefault
  refine ⟨wrap derived, ?_, hwrap derived hshows⟩
  rw [hmap]
  rfl

/-- A valid column yields the column of what a mapping shows of it. -/
theorem exists_map {column : Column} {mapping : Shared Mapping} (preferView : Bool) (fresh : Token)
    (hvalid : column.data.Valid column.type) (hsize : mapping.value.size ≤ rowLimit) :
    ∃ derived, column.map mapping preferView fresh = .ok derived ∧ derived.type = column.type ∧
      ColumnData.Shows mapping.value derived.data column.data := by
  have hlayouts : ∃ data, (column.data.traverse fun layout ↦ layout.map mapping
      (preferView && column.viewPaysOff mapping.value) fresh) = .ok data ∧
        ColumnData.Shows mapping.value data column.data := by
    obtain ⟨view, hview⟩ : ∃ view, (preferView && column.viewPaysOff mapping.value) = view :=
      ⟨_, rfl⟩
    rw [hview]
    have hdefault := hvalid.takesDefault
    obtain ⟨type, data⟩ := column
    cases data with
    | numbers layout => exact exists_traverse view fresh hsize hdefault _ fun _ h ↦ .numbers h
    | times layout => exact exists_traverse view fresh hsize hdefault _ fun _ h ↦ .times h
    | instants layout => exact exists_traverse view fresh hsize hdefault _ fun _ h ↦ .instants h
    | categories layout dictionary =>
      exact exists_traverse view fresh hsize hdefault _ fun _ h ↦ .categories h
    | objects layout => exact exists_traverse view fresh hsize hdefault _ fun _ h ↦ .objects h
  obtain ⟨data, hdata, hshows⟩ := hlayouts
  refine ⟨⟨column.type, data⟩, ?_, rfl, hshows⟩
  unfold map
  simp only [hdata, Outcome.ok_bind]
  rfl

end Column

end Columnar
