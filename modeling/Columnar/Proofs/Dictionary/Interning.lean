import Columnar.Column.Read
import Columnar.Proofs.Outcome

/-!
# Entering texts into a dictionary

Entering a text gives it an index and leaves the index of every other text alone: the dictionary
only grows at its end (`Extends`). So the indices collected while values are entered one by one
still stand for these values in the dictionary reached at last (`Interned`).
-/

set_option autoImplicit false
set_option relaxedAutoImplicit false

namespace Columnar

namespace Dictionary

/-- The later dictionary has the entries of the earlier one, and perhaps more after them. -/
def Extends (later earlier : Dictionary) : Prop :=
  ∀ (position : Nat) (text : String), earlier.texts[position]? = some text →
    later.texts[position]? = some text

variable {dictionary next : Dictionary} {text : String} {index : Nat}

theorem get?_eq_some_iff : dictionary.get? index = some text ↔
    ∃ position, index = position + 1 ∧ dictionary.texts[position]? = some text := by
  cases index with
  | zero => simp [get?]
  | succ position => simp [get?]

theorem Extends.get? (h : next.Extends dictionary) (hindex : dictionary.get? index = some text) :
    next.get? index = some text := by
  obtain ⟨position, rfl, htext⟩ := get?_eq_some_iff.mp hindex
  exact h position text htext

theorem Extends.size_le (h : next.Extends dictionary) :
    dictionary.texts.size ≤ next.texts.size := by
  apply Nat.le_of_not_lt
  intro hlt
  have hnone := h next.texts.size _ (Array.getElem?_eq_getElem hlt)
  simp at hnone

/-- An index keeps its text while the dictionary grows. -/
theorem Extends.get?_of_le (h : next.Extends dictionary) (hindex : index ≤ dictionary.maxIndex) :
    next.get? index = dictionary.get? index := by
  cases index with
  | zero => rfl
  | succ position =>
    have htext : dictionary.get? (position + 1) = some dictionary.texts[position] :=
      Array.getElem?_eq_getElem hindex
    rw [h.get? htext, htext]

/-- No text has two indices. -/
theorem index_unique {other : Nat} (hindex : dictionary.get? index = some text)
    (hother : dictionary.get? other = some text) : index = other := by
  obtain ⟨position, rfl, hposition⟩ := get?_eq_some_iff.mp hindex
  obtain ⟨place, rfl, hplace⟩ := get?_eq_some_iff.mp hother
  have htable := (dictionary.index_eq text position).mpr hposition
  rw [(dictionary.index_eq text place).mpr hplace] at htable
  rw [Option.some.inj htable]

/-- A text that is entered has the index that is answered, in a dictionary with at most one entry
more. -/
theorem enter_spec (dictionary : Dictionary) (text : String) :
    (dictionary.enter text).2.Extends dictionary ∧
      (dictionary.enter text).2.texts.size ≤ dictionary.texts.size + 1 ∧
      (dictionary.enter text).2.get? (dictionary.enter text).1 = some text := by
  unfold enter
  split
  · next position hposition =>
    exact ⟨fun _ _ h ↦ h, Nat.le_succ _, (dictionary.index_eq text position).mp hposition⟩
  · next habsent =>
    refine ⟨?_, ?_, ?_⟩
    · intro position other h
      have hlt : position < dictionary.texts.size := (Array.getElem?_eq_some_iff.mp h).1
      simp only [push, Array.getElem?_push]
      rw [if_neg (Nat.ne_of_lt hlt)]
      exact h
    · simp [push]
    · simp [size, get?, push]

theorem le_maxIndex_of_get? (h : dictionary.get? index = some text) :
    index ≤ dictionary.maxIndex := by
  obtain ⟨position, rfl, htext⟩ := get?_eq_some_iff.mp h
  exact (Array.getElem?_eq_some_iff.mp htext).1

end Dictionary

namespace Column

/-- The value that a category of a nominal column is entered for. -/
def categoryOf : Value → Value
  | .text text => .text text
  | _ => .missing

theorem categoryValue_eq_text_iff {dictionary : Dictionary} {index : Nat} {text : String} :
    categoryValue dictionary index = .text text ↔ dictionary.get? index = some text := by
  unfold categoryValue
  cases dictionary.get? index with
  | none => simp
  | some other => simp

/-- Entering a value succeeds while the dictionary has room for one more index. -/
theorem exists_indexOf {dictionary : Dictionary} (value : Value)
    (hroom : dictionary.size ≤ IndexFormat.int32.maxIndex) :
    ∃ index next, indexOf dictionary value = .done index next ∧ next.Extends dictionary ∧
      next.texts.size ≤ dictionary.texts.size + 1 ∧ index ≤ next.maxIndex ∧
      categoryValue next index = categoryOf value := by
  have hmissing : ∃ index next, (Attempt.done 0 dictionary : Attempt Dictionary Nat) =
      .done index next ∧ next.Extends dictionary ∧ next.texts.size ≤ dictionary.texts.size + 1 ∧
        index ≤ next.maxIndex ∧ categoryValue next index = .missing :=
    ⟨0, dictionary, rfl, fun _ _ h ↦ h, Nat.le_succ _, Nat.zero_le _, rfl⟩
  cases value with
  | text text =>
    obtain ⟨hextends, hsize, hget⟩ := dictionary.enter_spec text
    refine ⟨(dictionary.enter text).1, (dictionary.enter text).2, ?_, hextends, hsize,
      Dictionary.le_maxIndex_of_get? hget, categoryValue_eq_text_iff.mpr hget⟩
    have hfits : dictionary.index.contains text || IndexFormat.int32.fits dictionary.size := by
      rw [Bool.or_eq_true]
      exact .inr (IndexFormat.fits_iff.mpr hroom)
    simp only [indexOf, Dictionary.intern, if_pos hfits]
  | _ => exact hmissing

/-- These indices stand for these values in the dictionary. -/
structure Interned (values : List Value) (indices : List Nat) (dictionary : Dictionary) : Prop where
  run : Attempt.runAll indexOf (fun index _ ↦ index) .empty values = .done indices dictionary
  size_le : dictionary.texts.size ≤ values.length
  le_maxIndex : ∀ index ∈ indices, index ≤ dictionary.maxIndex
  categories : indices.map (categoryValue dictionary) = values.map categoryOf

theorem Interned.nil : Interned [] [] .empty := ⟨rfl, Nat.le_refl 0, nofun, rfl⟩

theorem Interned.length_eq {values : List Value} {indices : List Nat} {dictionary : Dictionary}
    (h : Interned values indices dictionary) : indices.length = values.length := by
  simpa using congrArg List.length h.categories

/-- The values determine the indices and the dictionary. -/
theorem Interned.unique {values : List Value} {indices others : List Nat}
    {dictionary other : Dictionary} (h : Interned values indices dictionary)
    (hother : Interned values others other) : indices = others ∧ dictionary = other := by
  have hrun := h.run.symm.trans hother.run
  exact Attempt.done.inj hrun

/-- An index keeps its value while the dictionary grows. -/
theorem categoryValue_eq_of_extends {dictionary next : Dictionary} {index : Nat}
    (h : next.Extends dictionary) (hindex : index ≤ dictionary.maxIndex) :
    categoryValue next index = categoryValue dictionary index := by
  unfold categoryValue
  rw [h.get?_of_le hindex]

/-- One more value. -/
theorem Interned.exists_append {values : List Value} {indices : List Nat} {dictionary : Dictionary}
    (h : Interned values indices dictionary) (value : Value) (hlength : values.length < rowLimit) :
    ∃ index next, indexOf dictionary value = .done index next ∧
      Interned (values ++ [value]) (indices ++ [index]) next := by
  have hroom : dictionary.size ≤ IndexFormat.int32.maxIndex :=
    Nat.le_trans (Nat.succ_le_succ h.size_le) hlength
  obtain ⟨index, next, hindex, hextends, hsize, hle, hcategory⟩ := exists_indexOf value hroom
  refine ⟨index, next, hindex, ?_, ?_, ?_, ?_⟩
  · exact Attempt.runAll_append_singleton _ _ h.run hindex
  · rw [List.length_append, List.length_singleton]
    exact Nat.le_trans hsize (Nat.succ_le_succ h.size_le)
  · intro other hother
    rcases List.mem_append.mp hother with hmem | hmem
    · exact Nat.le_trans (h.le_maxIndex other hmem) hextends.size_le
    · rw [List.mem_singleton.mp hmem]
      exact hle
  · have hkept : indices.map (categoryValue next) = indices.map (categoryValue dictionary) :=
      List.map_congr_left fun other hother ↦
        categoryValue_eq_of_extends hextends (h.le_maxIndex other hother)
    rw [List.map_append, List.map_append, hkept, h.categories, List.map_singleton, hcategory,
      List.map_singleton]

/-- Few enough values can all be entered. -/
theorem exists_interned {values : List Value} (hlength : values.length ≤ rowLimit) :
    ∃ indices dictionary, Interned values indices dictionary := by
  have hfrom {entered indices dictionary} (h : Interned entered indices dictionary)
      (rest : List Value) (hlength : (entered ++ rest).length ≤ rowLimit) :
      ∃ indices dictionary, Interned (entered ++ rest) indices dictionary := by
    induction rest generalizing entered indices dictionary with
    | nil => exact ⟨indices, dictionary, by rwa [List.append_nil]⟩
    | cons value rest ih =>
      have hlt : entered.length < rowLimit := by
        rw [List.length_append, List.length_cons] at hlength
        omega
      obtain ⟨index, next, -, hnext⟩ := h.exists_append value hlt
      rw [List.append_cons] at hlength ⊢
      exact ih hnext hlength
  exact hfrom .nil values hlength

/-- Within a dictionary, indices of the same value are the same. -/
theorem categoryValue_injective {dictionary : Dictionary} {index other : Nat}
    (hindex : index ≤ dictionary.maxIndex) (hother : other ≤ dictionary.maxIndex)
    (h : categoryValue dictionary index = categoryValue dictionary other) : index = other := by
  have htext {position : Nat} (hle : position + 1 ≤ dictionary.maxIndex) :
      dictionary.get? (position + 1) = some dictionary.texts[position] :=
    Array.getElem?_eq_getElem hle
  have hvalue {position : Nat} (hle : position + 1 ≤ dictionary.maxIndex) :=
    categoryValue_eq_text_iff.mpr (htext hle)
  cases index with
  | zero =>
    cases other with
    | zero => rfl
    | succ place =>
      rw [hvalue hother] at h
      contradiction
  | succ position =>
    rw [hvalue hindex] at h
    exact Dictionary.index_unique (htext hindex) (categoryValue_eq_text_iff.mp h.symm)

end Column

end Columnar
