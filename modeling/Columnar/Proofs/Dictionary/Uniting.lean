import Columnar.Proofs.Dictionary.Bijection

/-!
# Uniting dictionaries

A union is ordered: it has the texts of its first dictionary and after them, in their order, the
texts that only the second has (`texts_merge`). So uniting is associative. The tables of a union are
coherent with that: every one of them carries the texts of a dictionary to another, tables that
carry can be put one after the other (`Renumbering.Carries.followedBy`), and between two
dictionaries only one table of the right size carries all texts, because no text has two indices
(`Renumbering.eq_of_carries`). Hence it makes no difference for a table in which order three
dictionaries are united (`merge_coherent`). Nothing bounds a union: a dictionary grows past the
number of texts that a list may give to one (`exists_merge_tallies`).
-/

set_option autoImplicit false
set_option relaxedAutoImplicit false

namespace Columnar

namespace Renumbering

variable {first second : Renumbering}

/-- One table after the other; what the second does not cover becomes `0`. -/
def followedBy (first second : Renumbering) : Renumbering := ⟨first.targets.map second.target⟩

theorem size_followedBy (first second : Renumbering) :
    (first.followedBy second).size = first.size := Array.size_map

theorem get?_followedBy (first second : Renumbering) (index : Nat) :
    (first.followedBy second).get? index = (first.get? index).map second.target :=
  Array.getElem?_map

/-- Where the second table covers the targets of the first, every index is looked up in both. -/
theorem get?_followedBy_of_within (h : first.maxTarget < second.size) (index : Nat) :
    (first.followedBy second).get? index = (first.get? index).bind second.get? := by
  rw [get?_followedBy]
  cases hmiddle : first.get? index with
  | none => rfl
  | some middle =>
    have hle : middle ≤ first.maxTarget :=
      maxTarget_le_iff.mp (Nat.le_refl _) middle (Array.mem_toList_iff.mpr
        (Array.mem_of_getElem? hmiddle))
    exact (get?_of_lt (Nat.lt_of_le_of_lt hle h)).symm

theorem target_followedBy (first : Renumbering) (hzero : second.target 0 = 0) (index : Nat) :
    (first.followedBy second).target index = second.target (first.target index) := by
  unfold target
  rw [get?_followedBy]
  cases first.get? index with
  | none => exact hzero.symm
  | some middle => rfl

section Carrying

variable {source middle result other : Dictionary}

/-- What is carried to a dictionary is carried to one with more entries at its end. -/
theorem Carries.to_extension (h : first.Carries source result fun _ ↦ True)
    (hextends : other.Extends result) : first.Carries source other fun _ ↦ True := by
  refine ⟨h.covers, Nat.lt_of_lt_of_le h.within (Nat.succ_le_succ hextends.size_le), h.zero, ?_⟩
  intro index hindex _
  have htarget : first.target index ≤ result.maxIndex :=
    Nat.le_of_lt_succ (Nat.lt_of_le_of_lt (target_le_maxTarget first index) h.within)
  rw [hextends.get?_of_le htarget, h.text index hindex trivial]

/-- What carries a dictionary carries the entries that it started with. -/
theorem Carries.of_extension (h : first.Carries source result fun _ ↦ True)
    (hextends : source.Extends other) : first.Carries other result fun _ ↦ True := by
  refine ⟨Nat.le_trans (Nat.succ_le_succ hextends.size_le) h.covers, h.within, h.zero, ?_⟩
  intro index hindex _
  rw [h.text index (Nat.le_trans hindex hextends.size_le) trivial, hextends.get?_of_le hindex]

/-- Texts that are carried twice are carried. -/
theorem Carries.followedBy (hfirst : first.Carries source middle fun _ ↦ True)
    (hsecond : second.Carries middle result fun _ ↦ True) :
    (first.followedBy second).Carries source result fun _ ↦ True := by
  have htarget := target_followedBy first hsecond.zero
  refine ⟨?_, ?_, ?_, ?_⟩
  · rw [size_followedBy]
    exact hfirst.covers
  · refine Nat.lt_of_le_of_lt (maxTarget_le_iff.mpr fun target htarget ↦ ?_) hsecond.within
    obtain ⟨index, -, rfl⟩ := Array.mem_map.mp (Array.mem_toList_iff.mp htarget)
    exact target_le_maxTarget second index
  · rw [htarget, hfirst.zero, hsecond.zero]
  · intro index hindex _
    have hmiddle : first.target index ≤ middle.maxIndex :=
      Nat.le_of_lt_succ (Nat.lt_of_le_of_lt (target_le_maxTarget first index) hfirst.within)
    rw [htarget, hsecond.text _ hmiddle trivial, hfirst.text index hindex trivial]

/-- Tables that carry all texts to the same texts take every index to the same one. -/
theorem target_eq_of_carries (hfirst : first.Carries source result fun _ ↦ True)
    (hsecond : second.Carries source other fun _ ↦ True)
    (htexts : result.texts = other.texts) {index : Nat}
    (hindex : index ≤ source.maxIndex) : first.target index = second.target index := by
  by_cases hzero : index = 0
  · rw [hzero, hfirst.zero, hsecond.zero]
  · obtain ⟨text, htext⟩ := source.bijective.filled index (Nat.pos_of_ne_zero hzero)
      (Nat.lt_succ_of_le hindex)
    have hresult := hfirst.text index hindex trivial
    have hother := hsecond.text index hindex trivial
    rw [htext] at hresult hother
    rw [← Dictionary.get?_of_texts_eq htexts] at hother
    exact Dictionary.index_unique hresult hother

/-- Only one table of the size of a dictionary carries all its texts to the same texts. -/
theorem eq_of_carries (hfirst : first.Carries source result fun _ ↦ True)
    (hsecond : second.Carries source other fun _ ↦ True)
    (htexts : result.texts = other.texts)
    (hsize : first.size = source.size) (hsize' : second.size = source.size) : first = second := by
  have htargets : first.targets = second.targets := by
    refine Array.ext_getElem? fun index ↦ ?_
    by_cases hindex : index < source.size
    · have htarget := target_eq_of_carries hfirst hsecond htexts (Nat.le_of_lt_succ hindex)
      calc first.targets[index]? = some (first.target index) := get?_of_lt (hsize ▸ hindex)
        _ = some (second.target index) := congrArg some htarget
        _ = second.targets[index]? := (get?_of_lt (hsize' ▸ hindex)).symm
    · have hle := Nat.not_lt.mp hindex
      rw [Array.getElem?_eq_none (hsize ▸ hle : first.size ≤ index),
        Array.getElem?_eq_none (hsize' ▸ hle : second.size ≤ index)]
  exact congrArg Renumbering.mk htargets

end Carrying

end Renumbering

namespace Dictionary

variable {dictionary : Dictionary}

/-! ### The texts of a union -/

theorem indexOf?_eq_none_iff {text : String} :
    dictionary.indexOf? text = none ↔ text ∉ dictionary.texts.toList := by
  rw [Array.mem_toList_iff, Array.mem_iff_getElem?, Option.eq_none_iff_forall_ne_some]
  constructor
  · rintro habsent ⟨position, hposition⟩
    exact habsent (position + 1) (indexOf?_iff.mpr hposition)
  · intro habsent index hindex
    obtain ⟨position, -, hposition⟩ := get?_eq_some_iff.mp (indexOf?_iff.mp hindex)
    exact habsent ⟨position, hposition⟩

theorem enter_of_mem {text : String} (h : text ∈ dictionary.texts.toList) :
    (dictionary.enter text).2 = dictionary := by
  cases hindex : dictionary.indexOf? text with
  | none => exact absurd h (indexOf?_eq_none_iff.mp hindex)
  | some index => rw [enter_of_present hindex]

theorem texts_enter_of_notMem {text : String} (h : text ∉ dictionary.texts.toList) :
    (dictionary.enter text).2.texts.toList = dictionary.texts.toList ++ [text] := by
  obtain ⟨next, hnext, htexts⟩ := enter_of_absent (indexOf?_eq_none_iff.mpr h)
  rw [hnext, htexts, Array.toList_push]

/-- Of distinct texts, those that are entered anew come in their order. -/
theorem texts_enterAll (dictionary : Dictionary) (indices : Array Nat) {texts : List String}
    (hdistinct : texts.Nodup) :
    (dictionary.enterAll indices texts).1.texts.toList =
      dictionary.texts.toList ++ texts.filter (· ∉ dictionary.texts.toList) := by
  induction texts generalizing dictionary indices with
  | nil => exact (List.append_nil _).symm
  | cons text texts ih =>
    obtain ⟨hnew, hrest⟩ := List.nodup_cons.mp hdistinct
    have htail := ih (dictionary.enter text).2 (indices.push (dictionary.enter text).1) hrest
    change (dictionary.enterAll indices (text :: texts)).1.texts.toList = _ at htail
    rw [htail]
    by_cases hmem : text ∈ dictionary.texts.toList
    · rw [enter_of_mem hmem, List.filter_cons_of_neg (by simpa using hmem)]
    · have hsame : texts.filter (· ∉ dictionary.texts.toList ++ [text]) =
          texts.filter (· ∉ dictionary.texts.toList) := by
        refine List.filter_congr fun other hother ↦ ?_
        have hne : other ≠ text := ne_of_mem_of_not_mem hother hnew
        simp [hne]
      rw [texts_enter_of_notMem hmem, hsame, List.filter_cons_of_pos (by simpa using hmem),
        List.append_assoc, List.singleton_append]

/-- A union has the texts of the first dictionary, and then those that only the second has. -/
theorem texts_merge (first second : Dictionary) :
    (first.merge second).1.texts.toList =
      first.texts.toList ++ second.texts.toList.filter (· ∉ first.texts.toList) :=
  texts_enterAll first #[0] second.nodup_texts

/-- Without a text in common, a union has the texts of both. -/
theorem texts_merge_of_disjoint {first second : Dictionary}
    (h : ∀ text ∈ second.texts.toList, text ∉ first.texts.toList) :
    (first.merge second).1.texts.toList = first.texts.toList ++ second.texts.toList := by
  rw [texts_merge, List.filter_eq_self.mpr fun text htext ↦ decide_eq_true (h text htext)]

theorem size_merge (first second : Dictionary) : (first.merge second).2.size = second.size := by
  obtain ⟨-, entered, hindices, htexts⟩ := first.enterAll_spec #[0] second.texts.toList
  have hlength : entered.length = second.texts.size := by simpa using congrArg List.length htexts
  have hsize := congrArg List.length hindices
  rw [List.length_append, hlength, Nat.add_comm] at hsize
  exact hsize

/-- Uniting with texts that are all there changes nothing. -/
theorem merge_of_subset {first second : Dictionary}
    (h : ∀ text ∈ second.texts.toList, text ∈ first.texts.toList) :
    (first.merge second).1 = first := by
  have hfrom (indices : Array Nat) {texts : List String}
      (htexts : ∀ text ∈ texts, text ∈ first.texts.toList) :
      (first.enterAll indices texts).1 = first := by
    induction texts generalizing indices with
    | nil => rfl
    | cons text texts ih =>
      obtain ⟨htext, hrest⟩ := List.forall_mem_cons.mp htexts
      show ((first.enter text).2.enterAll _ texts).1 = first
      rw [enter_of_mem htext]
      exact ih _ hrest
  exact hfrom #[0] h

/-! ### Growing -/

/-- So many texts of growing length, from this length on. -/
def tallies (first count : Nat) : List String :=
  (List.range' first count).map fun length ↦ String.ofList (List.replicate length '|')

theorem length_tallies (first count : Nat) : (tallies first count).length = count := by
  rw [tallies, List.length_map, List.length_range']

theorem tallies_append (first count more : Nat) :
    tallies first count ++ tallies (first + count) more = tallies first (count + more) := by
  unfold tallies
  rw [← List.map_append, List.range'_append_1]

/-- Texts of different lengths are different. -/
theorem nodup_tallies (first count : Nat) : (tallies first count).Nodup := by
  refine List.pairwise_map.mpr (List.Pairwise.imp (fun hne heq ↦ hne ?_) (List.nodup_range' 1))
  simpa using congrArg String.length heq

theorem exists_ofList_tallies (first : Nat) {count : Nat}
    (hcount : count < IndexFormat.int32.maxIndex) :
    ∃ dictionary, ofList (tallies first count) = .ok dictionary ∧
      dictionary.texts.toList = tallies first count :=
  exists_ofList (nodup_tallies first count) ((length_tallies first count).symm ▸ hcount)

/-- A dictionary grows by uniting, whatever size it has. -/
theorem exists_merge_tallies {count more : Nat}
    (htexts : dictionary.texts.toList = tallies 0 count)
    (hmore : more < IndexFormat.int32.maxIndex) :
    ∃ other, ofList (tallies count more) = .ok other ∧
      (dictionary.merge other).1.texts.toList = tallies 0 (count + more) := by
  obtain ⟨other, hother, hlist⟩ := exists_ofList_tallies count hmore
  have hall : dictionary.texts.toList ++ other.texts.toList = tallies 0 (count + more) := by
    rw [htexts, hlist, ← tallies_append 0 count more, Nat.zero_add]
  have hdistinct : (dictionary.texts.toList ++ other.texts.toList).Nodup :=
    hall ▸ nodup_tallies 0 (count + more)
  refine ⟨other, hother, (texts_merge_of_disjoint fun text htext hmem ↦ ?_).trans hall⟩
  exact (List.nodup_append.mp hdistinct).2.2 text hmem text htext rfl

/-! ### Associating -/

/-- Appending what is new, twice, is appending what is new of all that is new. -/
theorem append_new_assoc (first second third : List String) :
    (first ++ second.filter (· ∉ first)) ++
        third.filter (· ∉ first ++ second.filter (· ∉ first)) =
      first ++ (second ++ third.filter (· ∉ second)).filter (· ∉ first) := by
  have hnew : third.filter (· ∉ first ++ second.filter (· ∉ first)) =
      third.filter fun text ↦ decide (text ∉ first) && decide (text ∉ second) := by
    refine List.filter_congr fun text _ ↦ ?_
    by_cases hfirst : text ∈ first <;> simp [hfirst]
  rw [hnew, List.filter_append, List.filter_filter, List.append_assoc]

theorem texts_merge_assoc (first second third : Dictionary) :
    ((first.merge second).1.merge third).1.texts =
      (first.merge (second.merge third).1).1.texts := by
  apply Array.toList_inj.mp
  rw [texts_merge, texts_merge, texts_merge, texts_merge]
  exact append_new_assoc first.texts.toList second.texts.toList third.texts.toList

/-- The table of the second dictionary is the front of the table of a larger one. -/
theorem get?_merge_merge (first second third : Dictionary) {index : Nat}
    (hindex : index < second.size) :
    (first.merge (second.merge third).1).2.get? index = (first.merge second).2.get? index := by
  have hextends := second.merge_extends third
  have hwide := Nat.lt_of_lt_of_le hindex (Nat.succ_le_succ hextends.size_le)
  have hsmall := (first.carries_merge second).to_extension
    ((first.merge second).1.merge_extends third)
  have hlarge := (first.carries_merge (second.merge third).1).of_extension hextends
  rw [Renumbering.get?_of_lt ((size_merge first _).symm ▸ hwide),
    Renumbering.get?_of_lt ((size_merge first second).symm ▸ hindex)]
  exact congrArg some (Renumbering.target_eq_of_carries hlarge hsmall
    (texts_merge_assoc first second third).symm (Nat.le_of_lt_succ hindex))

/-- The third dictionary goes where it would go by way of its union with the second. -/
theorem get?_merge_table (first second third : Dictionary) (index : Nat) :
    ((first.merge second).1.merge third).2.get? index =
      ((second.merge third).2.get? index).bind (first.merge (second.merge third).1).2.get? := by
  have hinner := second.carries_merge third
  have houter := first.carries_merge (second.merge third).1
  have hboth : ((first.merge second).1.merge third).2 =
      (second.merge third).2.followedBy (first.merge (second.merge third).1).2 := by
    refine Renumbering.eq_of_carries ((first.merge second).1.carries_merge third)
      (hinner.followedBy houter) (texts_merge_assoc first second third) (size_merge _ third) ?_
    rw [Renumbering.size_followedBy, size_merge]
  rw [hboth, Renumbering.get?_followedBy_of_within (Nat.lt_of_lt_of_le hinner.within houter.covers)]

/-! ### Nothing new -/

/-- A union without new texts has the identity as its table. -/
theorem merge_table_of_texts_eq {first second : Dictionary}
    (htexts : (first.merge second).1.texts = second.texts) (hword : second.size < 4294967296) :
    (first.merge second).2 = .identity second.size :=
  Renumbering.eq_of_carries (first.carries_merge second)
    (Renumbering.carries_identity (fun _ _ h ↦ h) hword) htexts (size_merge first second)
    (Renumbering.size_identity hword)

theorem texts_empty_merge (dictionary : Dictionary) :
    (empty.merge dictionary).1.texts = dictionary.texts := by
  apply Array.toList_inj.mp
  exact texts_merge_of_disjoint fun _ _ ↦ List.not_mem_nil

/-! ### The laws of uniting -/

/-- The texts that only the second dictionary has come last and in order, and the table tells where
its texts are. -/
structure Unites (first second : Dictionary) : Prop where
  texts_eq : (first.merge second).1.texts.toList =
    first.texts.toList ++ second.texts.toList.filter (· ∉ first.texts.toList)
  size_eq : (first.merge second).2.size = second.size
  zero : (first.merge second).2.get? 0 = some 0
  text : ∀ index < second.size, ∃ target, (first.merge second).2.get? index = some target ∧
    (first.merge second).1.get? target = second.get? index

/-- Uniting from the left and from the right comes to the same dictionary. The third one's table
into it is its table into the union of the last two, followed by the table of that union; the second
one's table into the union of the first two is where the larger table takes the same indices. -/
structure UnitesAlike (first second third : Dictionary) : Prop where
  agrees : ((first.merge second).1.merge third).1.agrees (first.merge (second.merge third).1).1
  third_table : ∀ index, ((first.merge second).1.merge third).2.get? index =
    ((second.merge third).2.get? index).bind (first.merge (second.merge third).1).2.get?
  second_table : ∀ index < second.size,
    (first.merge (second.merge third).1).2.get? index = (first.merge second).2.get? index

/-- Uniting with nothing new changes nothing. A table is the identity as long as a word of 32 bits
holds its size. -/
structure UnitesTrivially (dictionary : Dictionary) : Prop where
  self : (dictionary.merge dictionary).1 = dictionary
  self_table : dictionary.size < 4294967296 →
    (dictionary.merge dictionary).2 = .identity dictionary.size
  empty_last : dictionary.merge empty = (dictionary, .identity 1)
  empty_first : (empty.merge dictionary).1.agrees dictionary
  empty_first_table : dictionary.size < 4294967296 →
    (empty.merge dictionary).2 = .identity dictionary.size

theorem unites (first second : Dictionary) : first.Unites second where
  texts_eq := texts_merge first second
  size_eq := size_merge first second
  zero := by
    rw [Renumbering.get?_of_lt ((size_merge first second).symm ▸ Nat.succ_pos _),
      (first.carries_merge second).zero]
  text index hindex := ⟨_, Renumbering.get?_of_lt ((size_merge first second).symm ▸ hindex),
    (first.carries_merge second).text index (Nat.le_of_lt_succ hindex) trivial⟩

theorem unitesTrivially (dictionary : Dictionary) : dictionary.UnitesTrivially := by
  have hself : (dictionary.merge dictionary).1 = dictionary := merge_of_subset fun _ h ↦ h
  exact ⟨hself, merge_table_of_texts_eq (congrArg texts hself), rfl,
    agrees_iff_texts_eq.mpr (texts_empty_merge dictionary),
    merge_table_of_texts_eq (texts_empty_merge dictionary)⟩

/-- A union is ordered, it is the same whichever two of three dictionaries are united first, as are
the indices that the tables tell, and uniting with nothing new changes nothing. -/
theorem merge_coherent (first second third : Dictionary) :
    first.Unites second ∧ UnitesAlike first second third ∧ first.UnitesTrivially := by
  refine ⟨unites first second, ⟨?_, ?_, ?_⟩, unitesTrivially first⟩
  · exact agrees_iff_texts_eq.mpr (texts_merge_assoc first second third)
  · exact get?_merge_table first second third
  · exact fun _ hindex ↦ get?_merge_merge first second third hindex

end Dictionary

end Columnar
