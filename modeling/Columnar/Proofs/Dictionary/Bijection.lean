import Columnar.Proofs.Dictionary.Renumbering
import Mathlib.Data.List.Perm.Subperm

/-!
# Dictionaries as bijections

A dictionary pairs its distinct texts with the indices from `1` to its last one, and nothing has
index `0` (`Bijective`). It is made of a list exactly when no text repeats (`Makes`), and entering
a text either finds its index or appends it (`Interns`). Reordering is accepted exactly for the
permutations that keep `0` (`Remaps`): texts that found a free slot each went to different slots,
and as there are as many slots as texts, no slot is left (`perm_of_permuteInto`). Reorderings
compose like the permutations, so the inverse permutation undoes one.
-/

set_option autoImplicit false
set_option relaxedAutoImplicit false

namespace Columnar

namespace Dictionary

variable {dictionary : Dictionary}

/-- The texts and the indices from `1` to the last one stand for one another. -/
structure Bijective (dictionary : Dictionary) : Prop where
  distinct : dictionary.texts.toList.Nodup
  indexOf?_eq_some_iff : ∀ (text : String) (index : Nat), dictionary.indexOf? text = some index ↔
    1 ≤ index ∧ index < dictionary.size ∧ dictionary.get? index = some text
  filled : ∀ index, 1 ≤ index → index < dictionary.size →
    ∃ text, dictionary.get? index = some text
  reserved : dictionary.get? 0 = none
  past : ∀ index, dictionary.size ≤ index → dictionary.get? index = none

theorem get?_of_size_le {index : Nat} (h : dictionary.size ≤ index) :
    dictionary.get? index = none := by
  cases index with
  | zero => rfl
  | succ position => exact Array.getElem?_eq_none (Nat.le_of_succ_le_succ h)

theorem indexOf?_iff {text : String} {index : Nat} :
    dictionary.indexOf? text = some index ↔ dictionary.get? index = some text := by
  unfold indexOf?
  rw [Option.map_eq_some_iff, get?_eq_some_iff]
  constructor
  · rintro ⟨position, hposition, rfl⟩
    exact ⟨position, rfl, (dictionary.index_eq text position).mp hposition⟩
  · rintro ⟨position, rfl, hposition⟩
    exact ⟨position, (dictionary.index_eq text position).mpr hposition, rfl⟩

theorem bijective (dictionary : Dictionary) : dictionary.Bijective where
  distinct := dictionary.nodup_texts
  indexOf?_eq_some_iff := fun text index ↦ by
    rw [indexOf?_iff]
    refine ⟨fun hget ↦ ⟨?_, Nat.lt_succ_of_le (le_maxIndex_of_get? hget), hget⟩, fun h ↦ h.2.2⟩
    obtain ⟨position, rfl, -⟩ := get?_eq_some_iff.mp hget
    exact Nat.succ_pos position
  filled := fun index hpositive hindex ↦ by
    obtain ⟨position, rfl⟩ := Nat.exists_eq_succ_of_ne_zero (Nat.ne_of_gt hpositive)
    exact ⟨_, Array.getElem?_eq_getElem (Nat.lt_of_succ_lt_succ hindex)⟩
  reserved := rfl
  past := fun _ h ↦ get?_of_size_le h

/-- Dictionaries that answer alike for every index have the same texts. -/
theorem texts_eq_of_get? {first second : Dictionary}
    (h : ∀ index, first.get? index = second.get? index) : first.texts = second.texts :=
  Array.ext_getElem? fun position ↦ h (position + 1)

theorem get?_of_texts_eq {first second : Dictionary} (h : first.texts = second.texts)
    (index : Nat) : first.get? index = second.get? index := by
  cases index with
  | zero => rfl
  | succ position => exact congrArg (·[position]?) h

theorem agrees_iff_texts_eq {first second : Dictionary} :
    first.agrees second ↔ first.texts = second.texts := beq_iff_eq

/-! ### Making and entering -/

/-- What comes of making a dictionary of a list. -/
structure Makes (texts : List String) : Prop where
  accepted_iff : (∃ dictionary, ofList texts = .ok dictionary) ↔ texts.Nodup
  texts_eq : ∀ dictionary, ofList texts = .ok dictionary → dictionary.texts.toList = texts
  /-- The refusal names the first text that repeats an earlier one. -/
  refused : ¬texts.Nodup → ∃ (before : List String) (text : String) (after : List String),
    texts = before ++ text :: after ∧ before.Nodup ∧ text ∈ before ∧
      let index := before.length + 1
      ofList texts = .error
        (.invalidArgument "values" s!"duplicate dictionary value at index {index}")

theorem pushNew_of_mem {text : String} (h : text ∈ dictionary.texts.toList) :
    let index := dictionary.size
    dictionary.pushNew text = .error
      (.invalidArgument "values" s!"duplicate dictionary value at index {index}") := by
  obtain ⟨position, hposition⟩ := List.mem_iff_getElem?.mp h
  rw [Array.getElem?_toList] at hposition
  have hfound := (dictionary.index_eq text position).mpr hposition
  unfold pushNew
  split
  · rfl
  · next habsent =>
    rw [habsent] at hfound
    contradiction

/-- Unless all texts are new, the first one that is not is refused. -/
theorem foldlM_pushNew_of_repeated (dictionary : Dictionary) {texts : List String}
    (hrepeated : ¬(dictionary.texts.toList ++ texts).Nodup) :
    ∃ (before : List String) (text : String) (after : List String),
      texts = before ++ text :: after ∧ (dictionary.texts.toList ++ before).Nodup ∧
        text ∈ dictionary.texts.toList ++ before ∧
        let index := dictionary.size + before.length
        texts.foldlM pushNew dictionary = .error
          (.invalidArgument "values" s!"duplicate dictionary value at index {index}") := by
  induction texts generalizing dictionary with
  | nil => exact absurd ((List.append_nil _).symm ▸ dictionary.nodup_texts) hrepeated
  | cons text texts ih =>
    by_cases hmem : text ∈ dictionary.texts.toList
    · refine ⟨[], text, texts, rfl, ?_, List.mem_append_left _ hmem, ?_⟩
      · rw [List.append_nil]
        exact dictionary.nodup_texts
      · rw [List.foldlM_cons, pushNew_of_mem hmem]
        rfl
    · obtain ⟨next, hnext, htexts⟩ := exists_pushNew hmem
      rw [List.append_cons, ← htexts] at hrepeated
      obtain ⟨before, repeated, after, rfl, hdistinct, hagain, herror⟩ := ih next hrepeated
      have hsize : next.size + before.length = dictionary.size + (text :: before).length := by
        have hlength := congrArg List.length htexts
        simp only [Array.length_toList, List.length_append, List.length_singleton] at hlength
        simp only [size, List.length_cons, hlength]
        omega
      rw [htexts, ← List.append_cons] at hdistinct hagain
      refine ⟨text :: before, repeated, after, rfl, hdistinct, hagain, ?_⟩
      rw [List.foldlM_cons, hnext, ← hsize]
      exact herror

theorem makes {texts : List String} (hroom : texts.length < IndexFormat.int32.maxIndex) :
    Makes texts := by
  by_cases hdistinct : texts.Nodup
  · obtain ⟨dictionary, hdictionary, htexts⟩ := exists_ofList hdistinct hroom
    refine ⟨iff_of_true ⟨dictionary, hdictionary⟩ hdistinct, ?_, absurd hdistinct⟩
    intro other hother
    rw [hdictionary] at hother
    exact Except.ok.inj hother ▸ htexts
  · obtain ⟨before, text, after, htexts, hbefore, hagain, hfold⟩ :=
      foldlM_pushNew_of_repeated empty hdistinct
    have herror : ofList texts = texts.foldlM pushNew empty := by
      rw [ofList_eq, Fault.require, if_pos (decide_eq_true hroom)]
      rfl
    rw [hfold, Nat.add_comm] at herror
    have hnone {result : Dictionary} (h : ofList texts = .ok result) : False := by
      rw [herror] at h
      contradiction
    exact ⟨iff_of_false (fun h ↦ h.elim fun _ ↦ hnone) hdistinct, fun _ h ↦ (hnone h).elim,
      fun _ ↦ ⟨before, text, after, htexts, hbefore, hagain, herror⟩⟩

/-- What comes of entering a text. -/
structure Interns (dictionary : Dictionary) (text : String) : Prop where
  present : ∀ index, dictionary.indexOf? text = some index →
    dictionary.intern text = .done index dictionary
  absent : dictionary.indexOf? text = none → ∃ next,
    dictionary.intern text = .done dictionary.size next ∧
      next.texts.toList = dictionary.texts.toList ++ [text] ∧
      ∀ index < dictionary.size, next.get? index = dictionary.get? index

theorem enter_of_present {text : String} {index : Nat} (h : dictionary.indexOf? text = some index) :
    dictionary.enter text = (index, dictionary) := by
  unfold indexOf? at h
  unfold enter
  split
  · next position hposition =>
    rw [hposition] at h
    cases h
    rfl
  · next habsent =>
    rw [habsent] at h
    contradiction

theorem enter_of_absent {text : String} (h : dictionary.indexOf? text = none) :
    ∃ next : Dictionary, dictionary.enter text = (dictionary.size, next) ∧
      next.texts = dictionary.texts.push text := by
  unfold indexOf? at h
  unfold enter
  split
  · next position hposition =>
    rw [hposition] at h
    contradiction
  · exact ⟨_, rfl, rfl⟩

theorem interns (text : String) (hroom : dictionary.size ≤ rowLimit) :
    dictionary.Interns text := by
  have hfits : dictionary.index.contains text || IndexFormat.int32.fits dictionary.size := by
    rw [Bool.or_eq_true]
    exact .inr (IndexFormat.fits_iff.mpr hroom)
  refine ⟨?_, ?_⟩
  · intro index hindex
    unfold intern
    rw [if_pos hfits, enter_of_present hindex]
  · intro habsent
    obtain ⟨next, hnext, htexts⟩ := enter_of_absent habsent
    refine ⟨next, ?_, ?_, ?_⟩
    · unfold intern
      rw [if_pos hfits, hnext]
    · rw [htexts, Array.toList_push]
    · intro index hindex
      cases index with
      | zero => rfl
      | succ position =>
        show next.texts[position]? = dictionary.texts[position]?
        rw [htexts, Array.getElem?_push,
          if_neg (Nat.ne_of_lt (Nat.lt_of_succ_lt_succ hindex))]

/-! ### Reordering -/

/-- Texts that all found a free slot went to different slots, which were free before. -/
theorem of_permuteInto {slots filled : Array (Option String)} {moves : List (String × Nat × Nat)}
    (h : permuteInto slots moves = .ok filled) :
    (moves.map (·.2.1)).Nodup ∧
      ∀ move ∈ moves, 0 < move.2.1 ∧ slots[move.2.1 - 1]? = some none := by
  induction moves generalizing slots with
  | nil => exact ⟨List.nodup_nil, nofun⟩
  | cons move moves ih =>
    obtain ⟨text, new, old⟩ := move
    unfold permuteInto at h
    split at h
    · contradiction
    split at h
    · contradiction
    next hvalid hfree =>
    rw [Bool.or_eq_true, decide_eq_true_eq, decide_eq_true_eq, not_or, Nat.not_lt] at hvalid
    obtain ⟨hdistinct, hrest⟩ := ih h
    have hplace : new - 1 < slots.size := by omega
    have hslot : slots[new - 1]? = some none := by
      rw [Array.getElem?_eq_getElem hplace] at hfree ⊢
      cases hvalue : slots[new - 1] with
      | none => rfl
      | some other =>
        rw [hvalue] at hfree
        exact absurd rfl hfree
    -- The slot of this text is taken afterwards, so no later text can have gone there.
    have hother (move) (hmove : move ∈ moves) : move.2.1 - 1 ≠ new - 1 := by
      intro heq
      have hfound := (hrest move hmove).2
      rw [heq, Array.getElem?_setIfInBounds_self_of_lt hplace] at hfound
      exact Option.some_ne_none text (Option.some.inj hfound)
    refine ⟨List.nodup_cons.mpr ⟨fun hmem ↦ ?_, hdistinct⟩, List.forall_mem_cons.mpr
      ⟨⟨Nat.pos_of_ne_zero hvalid.1, hslot⟩, fun move hmove ↦ ?_⟩⟩
    · obtain ⟨move, hmove, heq⟩ := List.mem_map.mp hmem
      exact hother move hmove (congrArg (· - 1) heq)
    · obtain ⟨hpositive, hfound⟩ := hrest move hmove
      rw [Array.getElem?_setIfInBounds_ne (hother move hmove).symm] at hfound
      exact ⟨hpositive, hfound⟩

/-- A refusal to move a text is about the permutation. -/
theorem permuteInto_error {slots : Array (Option String)} {moves : List (String × Nat × Nat)}
    {fault : Fault} (h : permuteInto slots moves = .error fault) :
    ∃ reason, fault = .invalidArgument "permutation" reason := by
  induction moves generalizing slots with
  | nil => contradiction
  | cons move moves ih =>
    unfold permuteInto at h
    split at h
    · exact ⟨_, (Except.error.inj h).symm⟩
    split at h
    · exact ⟨_, (Except.error.inj h).symm⟩
    · exact ih h

/-- As there are as many texts as slots, texts that all found a slot were permuted. -/
theorem perm_of_permuteInto {targets : List Nat} {filled : Array (Option String)}
    (hlength : targets.length = dictionary.texts.size)
    (h : permuteInto (Array.replicate dictionary.texts.size none) (dictionary.moves targets) =
      .ok filled) :
    (0 :: targets).Perm (List.range dictionary.size) := by
  obtain ⟨hdistinct, hfree⟩ := of_permuteInto h
  rw [map_moves hlength] at hdistinct
  have hsubset : targets ⊆ (List.range dictionary.texts.size).map Nat.succ := by
    intro target htarget
    rw [← map_moves hlength] at htarget
    obtain ⟨move, hmove, rfl⟩ := List.mem_map.mp htarget
    obtain ⟨hpositive, hslot⟩ := hfree move hmove
    have hplace := (Array.getElem?_eq_some_iff.mp hslot).1
    rw [Array.size_replicate] at hplace
    exact List.mem_map.mpr ⟨_, List.mem_range.mpr hplace, Nat.succ_pred_eq_of_pos hpositive⟩
  have hperm := (hdistinct.subperm hsubset).perm_of_length_le (by simp [hlength])
  rw [size, List.range_succ_eq_map]
  exact hperm.cons 0

/-- The permutations of the indices that keep `0`. -/
def Reorders (permutation : List Nat) (size : Nat) : Prop :=
  permutation.Perm (List.range size) ∧ permutation.head? = some 0

/-- Where each index comes from. -/
def inversePermutation (permutation : List Nat) : List Nat :=
  (List.range permutation.length).map (permutation.idxOf ·)

/-- One permutation after the other. -/
def composePermutations (first second : List Nat) : List Nat :=
  first.map fun middle ↦ second[middle]?.getD 0

section Permutations

variable {permutation first second : List Nat} {size : Nat}

theorem Reorders.length_eq (h : Reorders permutation size) : permutation.length = size := by
  simpa using h.1.length_eq

theorem Reorders.nodup (h : Reorders permutation size) : permutation.Nodup :=
  h.1.nodup_iff.mpr List.nodup_range

theorem Reorders.mem_iff (h : Reorders permutation size) {index : Nat} :
    index ∈ permutation ↔ index < size :=
  h.1.mem_iff.trans List.mem_range

theorem Reorders.getElem?_inversePermutation (h : Reorders permutation size) (old new : Nat) :
    (inversePermutation permutation)[new]? = some old ↔ permutation[old]? = some new := by
  unfold inversePermutation
  rw [List.getElem?_map, Option.map_eq_some_iff, h.length_eq]
  constructor
  · rintro ⟨place, hplace, rfl⟩
    obtain ⟨hlt, hget⟩ := List.getElem?_eq_some_iff.mp hplace
    rw [List.getElem_range] at hget
    rw [List.length_range] at hlt
    exact hget ▸ List.getElem?_idxOf (h.mem_iff.mpr hlt)
  · intro hnew
    obtain ⟨hold, rfl⟩ := List.getElem?_eq_some_iff.mp hnew
    exact ⟨_, List.getElem?_range (h.mem_iff.mp (List.getElem_mem hold)),
      h.nodup.idxOf_getElem old hold⟩

theorem Reorders.inverse (h : Reorders permutation size) :
    Reorders (inversePermutation permutation) size := by
  have hplaces : permutation.map (permutation.idxOf ·) = List.range size := by
    rw [← h.length_eq]
    refine List.ext_getElem (by simp) fun place hplace _ ↦ ?_
    rw [List.length_map] at hplace
    rw [List.getElem_map, List.getElem_range, h.nodup.idxOf_getElem place hplace]
  refine ⟨?_, ?_⟩
  · rw [← hplaces, inversePermutation, h.length_eq]
    exact (h.1.map _).symm
  · rw [List.head?_eq_getElem?, h.getElem?_inversePermutation, ← List.head?_eq_getElem?]
    exact h.2

theorem getElem?_composePermutations {old middle new : Nat} (hmiddle : first[old]? = some middle)
    (hnew : second[middle]? = some new) :
    (composePermutations first second)[old]? = some new := by
  unfold composePermutations
  rw [List.getElem?_map, hmiddle, Option.map_some, hnew, Option.getD_some]

theorem Reorders.exists_middle (hfirst : Reorders first size) (hsecond : Reorders second size)
    {old new : Nat} (h : (composePermutations first second)[old]? = some new) :
    ∃ middle : Nat, first[old]? = some middle ∧ second[middle]? = some new := by
  unfold composePermutations at h
  rw [List.getElem?_map] at h
  obtain ⟨middle, hmiddle, rfl⟩ := Option.map_eq_some_iff.mp h
  have hlt : middle < second.length :=
    hsecond.length_eq ▸ hfirst.mem_iff.mp (List.mem_of_getElem? hmiddle)
  exact ⟨middle, hmiddle, by rw [List.getElem?_eq_getElem hlt, Option.getD_some]⟩

theorem Reorders.compose (hfirst : Reorders first size) (hsecond : Reorders second size) :
    Reorders (composePermutations first second) size := by
  have hall : (List.range size).map (fun middle ↦ second[middle]?.getD 0) = second := by
    rw [← hsecond.length_eq]
    refine List.ext_getElem (by simp) fun place _ hplace ↦ ?_
    rw [List.getElem_map, List.getElem_range, List.getElem?_eq_getElem hplace, Option.getD_some]
  refine ⟨?_, ?_⟩
  · have hmap := hfirst.1.map fun middle ↦ second[middle]?.getD 0
    rw [hall] at hmap
    exact hmap.trans hsecond.1
  · have hzero := hfirst.2
    have hzero' := hsecond.2
    rw [List.head?_eq_getElem?] at hzero hzero' ⊢
    exact getElem?_composePermutations hzero hzero'

end Permutations

/-- What comes of reordering by a list of indices. -/
structure Remaps (dictionary : Dictionary) (permutation : List Nat) : Prop where
  accepted_iff : (∃ result, dictionary.remap permutation = .ok result) ↔
    Reorders permutation dictionary.size
  refused : ¬Reorders permutation dictionary.size → ∃ reason,
    dictionary.remap permutation = .error (.invalidArgument "permutation" reason)
  moved : ∀ (remapped : Dictionary) (renumbering : Renumbering),
    dictionary.remap permutation = .ok (remapped, renumbering) →
      renumbering.toList = permutation ∧ remapped.size = dictionary.size ∧
        ∀ old new : Nat, permutation[old]? = some new →
          remapped.get? new = dictionary.get? old
  undone : ∀ (remapped : Dictionary) (renumbering : Renumbering),
    dictionary.remap permutation = .ok (remapped, renumbering) →
      (∀ old new : Nat, (inversePermutation permutation)[new]? = some old ↔
        permutation[old]? = some new) ∧
      ∃ restored back, remapped.remap (inversePermutation permutation) = .ok (restored, back) ∧
        restored.texts = dictionary.texts
  composed : ∀ (second : List Nat) (remapped twice : Dictionary) (renumbering last : Renumbering),
    dictionary.remap permutation = .ok (remapped, renumbering) →
      remapped.remap second = .ok (twice, last) →
        ∃ once both, dictionary.remap (composePermutations permutation second) = .ok (once, both) ∧
          once.texts = twice.texts

/-- What is not such a permutation is refused, and the permutation is blamed. -/
theorem remap_of_not_reorders {permutation : List Nat}
    (h : ¬Reorders permutation dictionary.size) :
    ∃ reason, dictionary.remap permutation = .error (.invalidArgument "permutation" reason) := by
  unfold remap Fault.require
  split
  · next hlength =>
    rw [Outcome.ok_bind]
    split
    · next hzero =>
      rw [Outcome.ok_bind]
      change ∃ reason, (permuteInto _ (dictionary.moves permutation.tail) >>= _) = _
      cases hfilled : permuteInto (Array.replicate dictionary.texts.size none)
          (dictionary.moves permutation.tail) with
      | error fault =>
        obtain ⟨reason, rfl⟩ := permuteInto_error hfilled
        exact ⟨reason, rfl⟩
      | ok filled =>
        have hzero := of_decide_eq_true hzero
        obtain ⟨targets, rfl⟩ := List.head?_eq_some_iff.mp hzero
        have hlength := Nat.succ.inj (of_decide_eq_true hlength)
        exact absurd ⟨perm_of_permuteInto hlength hfilled, hzero⟩ h
    · exact ⟨_, rfl⟩
  · exact ⟨_, rfl⟩

theorem reorders_of_remap {permutation : List Nat} {result : Dictionary × Renumbering}
    (h : dictionary.remap permutation = .ok result) : Reorders permutation dictionary.size := by
  by_contra hnot
  obtain ⟨reason, herror⟩ := remap_of_not_reorders hnot
  rw [herror] at h
  contradiction

theorem renumbering_of_remap {permutation : List Nat} {remapped : Dictionary}
    {renumbering : Renumbering} (h : dictionary.remap permutation = .ok (remapped, renumbering)) :
    renumbering = ⟨permutation.toArray⟩ := by
  unfold remap at h
  obtain ⟨⟨⟩, -, h⟩ := Outcome.bind_eq_ok_iff.mp h
  obtain ⟨⟨⟩, -, h⟩ := Outcome.bind_eq_ok_iff.mp h
  obtain ⟨slots, -, h⟩ := Outcome.bind_eq_ok_iff.mp h
  obtain ⟨other, -, h⟩ := Outcome.bind_eq_ok_iff.mp h
  exact (Prod.mk.inj (Except.ok.inj h)).2.symm

/-- A dictionary with room is reordered by each such permutation, and its texts move along. -/
theorem exists_reordered {permutation : List Nat} (h : Reorders permutation dictionary.size)
    (hroom : dictionary.size ≤ rowLimit) :
    ∃ remapped, dictionary.remap permutation = .ok (remapped, ⟨permutation.toArray⟩) ∧
      remapped.size = dictionary.size ∧
      ∀ old new : Nat, permutation[old]? = some new →
        remapped.get? new = dictionary.get? old := by
  obtain ⟨remapped, renumbering, hremap, hsize, hcarries⟩ := exists_remap h.1 h.2 hroom
  cases renumbering_of_remap hremap
  refine ⟨remapped, hremap, congrArg (· + 1) hsize, fun old new hnew ↦ ?_⟩
  have hold := (List.getElem?_eq_some_iff.mp hnew).1
  rw [h.length_eq] at hold
  rw [← hcarries.text old (Nat.le_of_lt_succ hold) trivial, Renumbering.target_of_toList hnew]

/-- Each index of a reordered dictionary comes from one, so dictionaries of one size that have the
same texts there are the same everywhere. -/
theorem texts_eq_of_reorders {permutation : List Nat} {first second : Dictionary}
    (h : Reorders permutation first.size) (hsize : second.size = first.size)
    (hget : ∀ old new : Nat, permutation[old]? = some new → first.get? new = second.get? new) :
    first.texts = second.texts := by
  refine texts_eq_of_get? fun index ↦ ?_
  by_cases hindex : index < first.size
  · obtain ⟨old, hold⟩ := List.mem_iff_getElem?.mp (h.mem_iff.mpr hindex)
    exact hget old index hold
  · have hle := Nat.not_lt.mp hindex
    rw [get?_of_size_le hle, get?_of_size_le (hsize ▸ hle)]

theorem moved_of_remap {permutation : List Nat} {remapped : Dictionary} {renumbering : Renumbering}
    (hroom : dictionary.size ≤ rowLimit)
    (h : dictionary.remap permutation = .ok (remapped, renumbering)) :
    renumbering.toList = permutation ∧ remapped.size = dictionary.size ∧
      ∀ old new : Nat, permutation[old]? = some new →
        remapped.get? new = dictionary.get? old := by
  obtain ⟨other, hother, hsize, hget⟩ := exists_reordered (reorders_of_remap h) hroom
  rw [h] at hother
  cases hother
  exact ⟨rfl, hsize, hget⟩

/-- The inverse permutation takes each text back to where it was. -/
theorem exists_restored {permutation : List Nat} {remapped : Dictionary}
    {renumbering : Renumbering} (hroom : dictionary.size ≤ rowLimit)
    (hremap : dictionary.remap permutation = .ok (remapped, renumbering)) :
    ∃ restored back, remapped.remap (inversePermutation permutation) = .ok (restored, back) ∧
      restored.texts = dictionary.texts := by
  have h := reorders_of_remap hremap
  obtain ⟨-, hsize, hget⟩ := moved_of_remap hroom hremap
  have hinverse : Reorders (inversePermutation permutation) remapped.size := hsize ▸ h.inverse
  obtain ⟨restored, hrestored, hback, hreturn⟩ := exists_reordered hinverse (hsize ▸ hroom)
  refine ⟨restored, _, hrestored, ?_⟩
  refine texts_eq_of_reorders (hback ▸ hinverse) (hsize ▸ hback).symm fun new old hold ↦ ?_
  rw [hreturn new old hold, hget old new ((h.getElem?_inversePermutation old new).mp hold)]

/-- Reordering at once by both permutations moves each text to where the second takes it from where
the first took it. -/
theorem exists_reordered_at_once {first second : List Nat} {remapped twice : Dictionary}
    {renumbering last : Renumbering} (hroom : dictionary.size ≤ rowLimit)
    (hfirst : dictionary.remap first = .ok (remapped, renumbering))
    (hsecond : remapped.remap second = .ok (twice, last)) :
    ∃ once both, dictionary.remap (composePermutations first second) = .ok (once, both) ∧
      once.texts = twice.texts := by
  obtain ⟨-, hsize, hget⟩ := moved_of_remap hroom hfirst
  obtain ⟨-, hsize', hget'⟩ := moved_of_remap (hsize ▸ hroom) hsecond
  have hreorders : Reorders second dictionary.size := hsize ▸ reorders_of_remap hsecond
  have hcompose := (reorders_of_remap hfirst).compose hreorders
  obtain ⟨once, honce, hsame, hgetOnce⟩ := exists_reordered hcompose hroom
  refine ⟨once, _, honce, ?_⟩
  have hsizes : twice.size = once.size := by rw [hsame, hsize', hsize]
  refine texts_eq_of_reorders (hsame ▸ hcompose) hsizes fun old new hnew ↦ ?_
  obtain ⟨middle, hmiddle, hlast⟩ := (reorders_of_remap hfirst).exists_middle hreorders hnew
  rw [hgetOnce old new hnew, hget' middle new hlast, hget old middle hmiddle]

theorem remaps (permutation : List Nat) (hroom : dictionary.size ≤ rowLimit) :
    dictionary.Remaps permutation where
  accepted_iff := by
    refine ⟨fun ⟨_, h⟩ ↦ reorders_of_remap h, fun h ↦ ?_⟩
    obtain ⟨remapped, hremap, -⟩ := exists_reordered h hroom
    exact ⟨_, hremap⟩
  refused := remap_of_not_reorders
  moved _ _ h := moved_of_remap hroom h
  undone _ _ h := ⟨(reorders_of_remap h).getElem?_inversePermutation, exists_restored hroom h⟩
  composed _ _ _ _ _ hfirst hsecond := exists_reordered_at_once hroom hfirst hsecond

/-- Whatever was done to it before, a dictionary is a bijection that keeps `0` for nothing. While it
has room, entering a text and reordering do what they say, and a list within the room makes one
exactly when it has no text twice. -/
theorem bijective_throughout :
    (∀ texts : List String, texts.length < IndexFormat.int32.maxIndex → Makes texts) ∧
      ∀ dictionary : Dictionary, dictionary.Bijective ∧ (dictionary.size ≤ rowLimit →
        (∀ text, dictionary.Interns text) ∧ ∀ permutation, dictionary.Remaps permutation) :=
  ⟨fun _ h ↦ makes h, fun dictionary ↦ ⟨dictionary.bijective, fun hroom ↦
    ⟨fun text ↦ interns text hroom, fun permutation ↦ remaps permutation hroom⟩⟩⟩

/-- Three texts, the first of them moved to the end and back. -/
theorem bijective_throughout_three : ∃ dictionary remapped renumbering,
    ofList ["ash", "oak", "elm"] = .ok dictionary ∧
      dictionary.remap [0, 3, 1, 2] = .ok (remapped, renumbering) ∧
      remapped.get? 3 = some "ash" ∧
      ∃ restored back, remapped.remap [0, 2, 3, 1] = .ok (restored, back) ∧
        restored.texts.toList = ["ash", "oak", "elm"] := by
  have hmakes := bijective_throughout.1 ["ash", "oak", "elm"] (by decide)
  obtain ⟨dictionary, hdictionary⟩ := hmakes.accepted_iff.mpr (by decide)
  have htexts := hmakes.texts_eq dictionary hdictionary
  have hsize : dictionary.size = 4 := congrArg (· + 1) (maxIndex_of_toList htexts)
  have hremaps := ((bijective_throughout.2 dictionary).2 (hsize ▸ by decide)).2 [0, 3, 1, 2]
  obtain ⟨⟨remapped, renumbering⟩, hremap⟩ :=
    hremaps.accepted_iff.mpr (hsize ▸ ⟨by decide, rfl⟩)
  obtain ⟨-, restored, back, hrestored, hback⟩ := hremaps.undone remapped renumbering hremap
  refine ⟨dictionary, remapped, renumbering, hdictionary, hremap, ?_, restored, back, hrestored,
    hback ▸ htexts⟩
  rw [(hremaps.moved remapped renumbering hremap).2.2 1 3 rfl]
  show dictionary.texts[0]? = some "ash"
  rw [← Array.getElem?_toList, htexts]
  rfl

end Dictionary

end Columnar
