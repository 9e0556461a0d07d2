import Columnar.Proofs.Column.Filling
import Columnar.Proofs.Dictionary.Bijection

/-!
# Renumberings that cover a column

A nominal column can be taken to any dictionary through any renumbering that covers its own one and
stays within the other (`Reachable.redirects_iff`). Nothing else is checked up front, and no more is
needed: the indices in the store, those that no row reads among them, and the default of a sparse
layout are all in the table, the targets all fit the format of the new dictionary, and the gate
accepts the outcome. Every row then reads the target of its index, in a layout of the same kind with
the same mapping or positions (`Redirects`). Rows stay missing because every renumbering that
dictionaries answer with keeps `0` (`Renumbering.Produced`).
-/

set_option autoImplicit false
set_option relaxedAutoImplicit false

namespace Columnar

/-! ### What renumberings there are -/

namespace Renumbering

/-- The renumberings that dictionaries answer with. -/
inductive Produced : Renumbering → Prop
  | identity (size : Nat) : Produced (identity size)
  | remap {dictionary remapped : Dictionary} {permutation : List Nat} {renumbering : Renumbering}
    (h : dictionary.remap permutation = .ok (remapped, renumbering)) : Produced renumbering
  | merge (dictionary other : Dictionary) : Produced (dictionary.merge other).2
  | compact {dictionary compacted : Shared Dictionary} {usage : List Nat} {fresh : Token}
    {renumbering : Renumbering}
    (h : Dictionary.compact dictionary usage fresh = .ok (compacted, renumbering)) :
    Produced renumbering

theorem target_identity_zero (size : Nat) : (identity size).target 0 = 0 := by
  unfold target get? identity
  cases size % 4294967296 with
  | zero => rfl
  | succ count => simp

/-- All of them keep `0`. -/
theorem Produced.target_zero {renumbering : Renumbering} (h : renumbering.Produced) :
    renumbering.target 0 = 0 := by
  cases h with
  | identity size => exact target_identity_zero size
  | merge dictionary other => exact (dictionary.carries_merge other).zero
  | remap h =>
    cases Dictionary.renumbering_of_remap h
    have hzero := (Dictionary.reorders_of_remap h).2
    rw [List.head?_eq_getElem?] at hzero
    exact target_of_toList hzero
  | compact h =>
    obtain ⟨⟨⟩, -, h⟩ := Outcome.bind_eq_ok_iff.mp h
    split at h
    · cases h
      exact target_identity_zero _
    · obtain ⟨compacted, -, h⟩ := Outcome.bind_eq_ok_iff.mp h
      cases h
      rfl

end Renumbering

/-! ### What rebuilding keeps -/

theorem IndexArray.format_renumber {array result : IndexArray} {table : Array Nat}
    {format : IndexFormat} (h : array.renumber table format = .ok result) :
    result.format = format := by
  unfold renumber at h
  refine Outcome.of_foldlM (fun array : IndexArray ↦ array.format = format) ?_ h
    (IndexCells.format_zeros _ _)
  intro array position next hformat hstep
  dsimp only at hstep
  split at hstep
  · exact (of_set hstep).2.1.trans hformat
  · contradiction

namespace Layout

/-- The positions of a sparse layout. -/
def positions? {S C : Type} : Layout S C → Option (Array Nat)
  | sparse source => some source.positions
  | _ => none

/-- Rebuilding replaces nothing but the cells. -/
theorem of_rebuild {S C : Type} [Cell C] [Store S C] {layout derived : Layout S C}
    {store : S → Outcome S} {cell : C → Outcome C}
    (h : layout.rebuild store cell = .ok derived) :
    derived.mapping? = layout.mapping? ∧ derived.positions? = layout.positions? ∧
      store layout.prototype = .ok derived.prototype := by
  cases layout with
  | dense current =>
    obtain ⟨rebuilt, hrebuilt, h⟩ := Outcome.bind_eq_ok_iff.mp h
    cases h
    exact ⟨rfl, rfl, hrebuilt⟩
  | mapped current mapping =>
    obtain ⟨rebuilt, hrebuilt, h⟩ := Outcome.bind_eq_ok_iff.mp h
    cases h
    exact ⟨rfl, rfl, hrebuilt⟩
  | sparse source =>
    obtain ⟨default, -, h⟩ := Outcome.bind_eq_ok_iff.mp h
    obtain ⟨rebuilt, hrebuilt, h⟩ := Outcome.bind_eq_ok_iff.mp h
    cases h
    exact ⟨rfl, rfl, hrebuilt⟩

end Layout

/-! ### Columns for another dictionary -/

namespace Column

variable {column : Column} {dictionary current : Shared Dictionary} {renumbering : Renumbering}

/-- The format that the indices are packed in. -/
def indexFormat? (column : Column) : Option IndexFormat :=
  match column.data with
  | .categories layout _ => some layout.prototype.format
  | _ => none

/-- The positions of a sparse column. -/
def positions? (column : Column) : Option (Array Nat) :=
  column.data.onLayout fun layout ↦ layout.positions?

/-- The column with every index replaced by its target in another dictionary. -/
structure Redirects (derived column : Column) (dictionary : Shared Dictionary)
    (renumbering : Renumbering) : Prop where
  type_eq : derived.type = column.type
  dictionary_eq : derived.dictionary? = some dictionary
  size_eq : derived.size = column.size
  arrangement_eq : derived.arrangement = column.arrangement
  mapping_eq : derived.mapping? = column.mapping?
  positions_eq : derived.positions? = column.positions?
  /-- The indices are packed in the narrowest format that holds the last one. -/
  format : ∃ format, derived.indexFormat? = some format ∧ format.fits dictionary.value.maxIndex ∧
    ∀ other : IndexFormat, other.fits dictionary.value.maxIndex → format.bits ≤ other.bits
  index : ∀ row < column.size,
    renumbering.get? (column.data.indexAt row) = some (derived.data.indexAt row)
  get : ∀ row < column.size,
    derived.get row = .ok (categoryValue dictionary.value (derived.data.indexAt row))
  missing : ∀ row < column.size, column.get row = .ok .missing → derived.get row = .ok .missing

/-- How a column answers to a dictionary and a renumbering. -/
structure RedirectLaw (column : Column) (dictionary : Shared Dictionary)
    (renumbering : Renumbering) (outcome : Outcome Column) : Prop where
  unsupported_iff : (∃ operation type, outcome = .error (.unsupported operation type)) ↔
    column.type ≠ .nominal
  nominal : column.type = .nominal → ∃ current, column.dictionary? = some current
  refused_iff : ∀ current, column.dictionary? = some current →
    ((∃ argument reason, outcome = .error (.invalidArgument argument reason)) ↔
      renumbering.size < current.value.size ∨ dictionary.value.size ≤ renumbering.maxTarget)
  /-- The refusals come in this order, and there are no others. -/
  refusal : ∀ fault, outcome = .error fault →
    fault = .unsupported "with_dictionary" column.type.name ∨
    fault = .invalidArgument "translation" "translation.len() >= current.size()" ∨
    fault = .invalidArgument "translation" "(translation.max_target() as usize) < dictionary.size()"
  redirects : ∀ current, column.dictionary? = some current →
    current.value.size ≤ renumbering.size → renumbering.maxTarget < dictionary.value.size →
    ∃ derived, outcome = .ok derived ∧ derived.Redirects column dictionary renumbering

section

variable {type : ColumnType} {layout derived : Layout IndexArray Nat}

/-- What a nominal column is taken to is its layout, rebuilt in the format of the dictionary. -/
theorem rebuild_of_withDictionary
    (h : withDictionary ⟨type, .categories layout current⟩ dictionary renumbering =
      .ok ⟨type, .categories derived dictionary⟩) :
    ∃ format, IndexFormat.narrowest? dictionary.value.maxIndex = some format ∧
      layout.rebuild (·.renumber renumbering.targets format) (renumberIndex renumbering) =
        .ok derived := by
  obtain ⟨⟨⟩, -, h⟩ := Outcome.bind_eq_ok_iff.mp h
  obtain ⟨⟨⟩, -, h⟩ := Outcome.bind_eq_ok_iff.mp h
  obtain ⟨format, hformat, h⟩ := Outcome.bind_eq_ok_iff.mp h
  obtain ⟨rebuilt, hrebuilt, h⟩ := Outcome.bind_eq_ok_iff.mp h
  have hdata := (data_of_ofData h).2
  cases hdata
  refine ⟨format, ?_, hrebuilt⟩
  unfold IndexFormat.ofDictionarySize at hformat
  split at hformat
  · next other hother =>
    cases hformat
    exact hother
  · contradiction

theorem withDictionary_of_not_covers (hcovers : ¬current.value.size ≤ renumbering.size) :
    withDictionary ⟨type, .categories layout current⟩ dictionary renumbering =
      .error (.invalidArgument "translation" "translation.len() >= current.size()") := by
  unfold withDictionary Fault.require
  dsimp only
  rw [decide_eq_false hcovers]
  rfl

theorem withDictionary_of_not_within (hcovers : current.value.size ≤ renumbering.size)
    (hwithin : ¬renumbering.maxTarget < dictionary.value.size) :
    withDictionary ⟨type, .categories layout current⟩ dictionary renumbering =
      .error (.invalidArgument "translation"
        "(translation.max_target() as usize) < dictionary.size()") := by
  unfold withDictionary Fault.require
  dsimp only
  rw [decide_eq_true hcovers, decide_eq_false hwithin]
  rfl

/-- Once both checks are passed, nothing is in the way. -/
theorem exists_redirects (h : Reachable ⟨type, .categories layout current⟩)
    (hzero : renumbering.target 0 = 0)
    (hroom : dictionary.value.maxIndex ≤ IndexFormat.int32.maxIndex)
    (hcovers : current.value.size ≤ renumbering.size)
    (hwithin : renumbering.maxTarget < dictionary.value.size) :
    ∃ derived, withDictionary ⟨type, .categories layout current⟩ dictionary renumbering =
        .ok derived ∧
      derived.Redirects ⟨type, .categories layout current⟩ dictionary renumbering := by
  have hfits : IndexFormat.int32.fits (dictionary.value.size - 1) := IndexFormat.fits_iff.mpr hroom
  obtain ⟨format, hformat⟩ := IndexFormat.exists_ofDictionarySize hfits
  obtain ⟨derived, hderived, hrenumbers, -⟩ :=
    exists_withDictionary h.valid hcovers hwithin hformat
  obtain ⟨format, hnarrowest, hrebuild⟩ := rebuild_of_withDictionary hderived
  obtain ⟨hmapping, hpositions, hstore⟩ := Layout.of_rebuild hrebuild
  have hread := hrenumbers.read hzero
  have hget (row : Nat) (hrow : row < layout.size) :
      get ⟨type, .categories derived dictionary⟩ row =
        .ok (categoryValue dictionary.value (derived.read row)) :=
    get_of_lt (Nat.lt_of_lt_of_eq hrow hrenumbers.size_eq.symm)
  refine ⟨_, hderived, rfl, rfl, hrenumbers.size_eq, hrenumbers.arrangement_eq, hmapping,
    hpositions, ?_, ?_, hget, ?_⟩
  · refine ⟨format, ?_, IndexFormat.fits_of_narrowest? hnarrowest,
      fun other hother ↦ IndexFormat.bits_le_of_narrowest? hnarrowest hother⟩
    exact congrArg some (IndexArray.format_renumber hstore)
  · intro row _
    have hindex := Nat.lt_of_lt_of_le (read_lt_size h.valid row) hcovers
    show renumbering.get? (layout.read row) = some (derived.read row)
    rw [Renumbering.get?_of_lt hindex, hread]
  · intro row hrow hmissing
    have hvalue : categoryValue current.value (layout.read row) =
        categoryValue current.value 0 := by
      rw [get_of_lt hrow] at hmissing
      exact Except.ok.inj hmissing
    have hindex := categoryValue_injective (Nat.le_of_lt_succ (read_lt_size h.valid row))
      (Nat.zero_le _) hvalue
    rw [hget row hrow, hread, hindex, hzero]
    rfl

end

/-- A check that fails decides the answer of a nominal column. -/
theorem redirectLaw_of_refused {outcome : Outcome Column} {condition : String}
    (hnominal : column.type = .nominal) (hcurrent : column.dictionary? = some current)
    (hrefused : renumbering.size < current.value.size ∨
      dictionary.value.size ≤ renumbering.maxTarget)
    (hcondition : condition = "translation.len() >= current.size()" ∨
      condition = "(translation.max_target() as usize) < dictionary.size()")
    (houtcome : outcome = .error (.invalidArgument "translation" condition)) :
    column.RedirectLaw dictionary renumbering outcome := by
  subst houtcome
  refine ⟨iff_of_false (fun ⟨_, _, h⟩ ↦ nomatch h) (absurd hnominal), fun _ ↦ ⟨current, hcurrent⟩,
    ?_, ?_, ?_⟩
  · intro other hother
    cases hcurrent.symm.trans hother
    exact iff_of_true ⟨_, _, rfl⟩ hrefused
  · intro fault hfault
    cases hfault
    exact .inr (hcondition.imp (congrArg _) (congrArg _))
  · intro other hother hcovers hwithin
    cases hcurrent.symm.trans hother
    omega

/-- A nominal column is taken to a dictionary by exactly the renumberings that cover its own one and
stay within the other. -/
theorem Reachable.redirects_iff (h : column.Reachable) (hproduced : renumbering.Produced)
    (hroom : dictionary.value.maxIndex ≤ IndexFormat.int32.maxIndex) :
    column.RedirectLaw dictionary renumbering
      (column.withDictionary dictionary renumbering) := by
  have hholds := h.valid.holds
  obtain ⟨type, data⟩ := column
  cases data with
  | categories layout current =>
    have hnominal := h.valid.eq_nominal
    by_cases hcovers : current.value.size ≤ renumbering.size
    · by_cases hwithin : renumbering.maxTarget < dictionary.value.size
      · obtain ⟨derived, hderived, hredirects⟩ :=
          exists_redirects h hproduced.target_zero hroom hcovers hwithin
        rw [hderived]
        refine ⟨iff_of_false (fun ⟨_, _, h⟩ ↦ nomatch h) (absurd hnominal),
          fun _ ↦ ⟨current, rfl⟩, ?_, nofun, fun _ _ _ _ ↦ ⟨derived, rfl, hredirects⟩⟩
        rintro other hother
        cases hother
        exact iff_of_false (fun ⟨_, _, h⟩ ↦ nomatch h) (by omega)
      · exact redirectLaw_of_refused hnominal rfl (.inr (Nat.not_lt.mp hwithin)) (.inr rfl)
          (withDictionary_of_not_within hcovers hwithin)
    · exact redirectLaw_of_refused hnominal rfl (.inl (Nat.not_le.mp hcovers)) (.inl rfl)
        (withDictionary_of_not_covers hcovers)
  | _ =>
    have hother : type ≠ .nominal := by
      rintro rfl
      contradiction
    refine ⟨iff_of_true ⟨_, _, rfl⟩ hother, fun h ↦ absurd h hother, nofun, ?_, nofun⟩
    intro fault hfault
    exact .inl (Except.error.inj hfault).symm

/-- A view with a row out of range, for a dictionary of the same texts the other way round. -/
theorem Reachable.redirects_iff_of_view : ∃ dictionary remapped renumbering indices column derived,
    Dictionary.ofList ["ash", "oak"] = .ok dictionary ∧
      dictionary.remap [0, 2, 1] = .ok (remapped, renumbering) ∧
      IndexArray.ofList .uint4 [2, 1] = .ok indices ∧
      Column.ofData .nominal (.categories (.mapped indices ⟨0, .ofList [1, 7, 0]⟩)
        ⟨1, dictionary⟩) = .ok column ∧
      column.withDictionary ⟨2, remapped⟩ renumbering = .ok derived ∧
      derived.Redirects column ⟨2, remapped⟩ renumbering := by
  have hdistinct : ["ash", "oak"].Nodup := by decide
  obtain ⟨dictionary, hdictionary, htexts⟩ := Dictionary.exists_ofList hdistinct (by decide)
  have hsize : dictionary.texts.size = 2 := Dictionary.maxIndex_of_toList htexts
  have hreorders : Dictionary.Reorders [0, 2, 1] dictionary.size := by
    rw [Dictionary.size, hsize]
    exact ⟨by decide, rfl⟩
  obtain ⟨remapped, hremap, hsame, -⟩ := Dictionary.exists_reordered hreorders
    (by rw [Dictionary.size, hsize]; decide)
  have hlast : remapped.maxIndex = 2 := (Nat.succ.inj hsame).trans hsize
  obtain ⟨indices, hindices⟩ : ∃ indices, IndexArray.ofList .uint4 [2, 1] = .ok indices := ⟨_, rfl⟩
  have hvalid : (ColumnData.categories (.mapped indices ⟨0, .ofList [1, 7, 0]⟩)
      ⟨1, dictionary⟩).Valid .nominal := by
    cases hindices
    exact ColumnData.valid_of_maxIndex hsize rfl (by decide)
  have haccepted : (ColumnData.categories (.mapped indices ⟨0, .ofList [1, 7, 0]⟩)
      ⟨1, dictionary⟩).Accepted := ⟨trivial, trivial⟩
  have hroom : remapped.maxIndex ≤ IndexFormat.int32.maxIndex := by
    rw [hlast]
    decide
  have hlaw := @Reachable.redirects_iff _ ⟨2, remapped⟩ _
    (.ofData haccepted (ofData_of_valid hvalid)) (.remap hremap) hroom
  obtain ⟨derived, hderived, hredirects⟩ := hlaw.redirects ⟨1, dictionary⟩ rfl
    (show dictionary.texts.size + 1 ≤ 3 from hsize ▸ Nat.le_refl 3)
    (show 2 < remapped.maxIndex + 1 from hlast ▸ Nat.lt_succ_self 2)
  exact ⟨dictionary, remapped, _, indices, _, derived, hdictionary, hremap, hindices,
    ofData_of_valid hvalid, hderived, hredirects⟩

end Column

end Columnar
