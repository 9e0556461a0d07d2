import Columnar.Dictionary.Renumbering
import Columnar.Proofs.Column.Validity
import Columnar.Proofs.Dictionary.Interning

/-!
# Renumberings between dictionaries

Each way of reconciling dictionaries answers with a renumbering under which indices keep their texts
(`Renumbering.Carries`). Reordering keeps the text of every index (`exists_remap`), and so does a
union for both dictionaries (`carries_merge`, `merge_extends`). Compacting keeps the texts of the
used indices and has an index for nothing else (`exists_compact`), so a dictionary in which every
index is used stays the very same one (`compact_of_used`).
-/

set_option autoImplicit false
set_option relaxedAutoImplicit false

namespace Columnar

namespace Renumbering

/-- What an index becomes; `0` past the end of the table. -/
def target (renumbering : Renumbering) (index : Nat) : Nat :=
  (renumbering.get? index).getD 0

variable {renumbering : Renumbering} {index : Nat}

theorem get?_of_lt (h : index < renumbering.size) :
    renumbering.get? index = some (renumbering.target index) := by
  unfold target get?
  rw [Array.getElem?_eq_getElem h, Option.getD_some]

theorem target_of_toList {target : Nat} (h : renumbering.toList[index]? = some target) :
    renumbering.target index = target := by
  unfold Renumbering.target get?
  rw [← Array.getElem?_toList]
  exact congrArg (Option.getD · 0) h

theorem maxTarget_le_iff {bound : Nat} :
    renumbering.maxTarget ≤ bound ↔ ∀ target ∈ renumbering.toList, target ≤ bound := by
  unfold maxTarget
  rw [Column.foldl_max_le_iff]
  exact and_iff_right (Nat.zero_le _)

theorem target_le_maxTarget (renumbering : Renumbering) (index : Nat) :
    renumbering.target index ≤ renumbering.maxTarget := by
  by_cases hindex : index < renumbering.size
  · refine maxTarget_le_iff.mp (Nat.le_refl _) _ ?_
    exact Array.mem_toList_iff.mpr (Array.mem_of_getElem? (get?_of_lt hindex))
  · unfold target get?
    rw [Array.getElem?_eq_none (Nat.not_lt.mp hindex)]
    exact Nat.zero_le _

/-- The kept indices of the source have the text in the result that they had before. -/
structure Carries (renumbering : Renumbering) (source result : Dictionary) (kept : Nat → Prop) :
    Prop where
  covers : source.size ≤ renumbering.size
  within : renumbering.maxTarget < result.size
  zero : renumbering.target 0 = 0
  text : ∀ index ≤ source.maxIndex, kept index →
    result.get? (renumbering.target index) = source.get? index

theorem Carries.mono {source result : Dictionary} {kept fewer : Nat → Prop}
    (h : renumbering.Carries source result kept) (hfewer : ∀ index, fewer index → kept index) :
    renumbering.Carries source result fewer :=
  ⟨h.covers, h.within, h.zero, fun index hindex hkept ↦ h.text index hindex (hfewer index hkept)⟩

/-- A table that starts with `0` and lists an index of every text in order carries all of them. -/
theorem carries_of_toList {source result : Dictionary} {targets : List Nat}
    (hlist : renumbering.toList = 0 :: targets)
    (htargets : targets.map result.get? = source.texts.toList.map some) :
    renumbering.Carries source result fun _ ↦ True := by
  have hlength : targets.length = source.texts.size := by simpa using congrArg List.length htargets
  have hzero : renumbering.target 0 = 0 := target_of_toList (by rw [hlist]; rfl)
  refine ⟨?_, ?_, hzero, ?_⟩
  · have hsize := congrArg List.length hlist
    rw [List.length_cons, hlength] at hsize
    exact Nat.le_of_eq hsize.symm
  · refine Nat.lt_succ_of_le (maxTarget_le_iff.mpr fun target htarget ↦ ?_)
    rw [hlist] at htarget
    rcases List.mem_cons.mp htarget with rfl | htarget
    · exact Nat.zero_le _
    · obtain ⟨text, -, htext⟩ := List.mem_map.mp (htargets ▸ List.mem_map_of_mem htarget)
      exact Dictionary.le_maxIndex_of_get? htext.symm
  · rintro index hindex -
    cases index with
    | zero => rw [hzero]; rfl
    | succ position =>
      have hposition : position < targets.length := hlength ▸ hindex
      have htarget : renumbering.target (position + 1) = targets[position] := target_of_toList (by
        rw [hlist, List.getElem?_cons_succ, List.getElem?_eq_getElem hposition])
      rw [htarget]
      have htext := congrArg (·[position]?) htargets
      rw [List.getElem?_map, List.getElem?_map, List.getElem?_eq_getElem hposition,
        Array.getElem?_toList, Array.getElem?_eq_getElem hindex] at htext
      exact (Option.some.inj htext).trans (Array.getElem?_eq_getElem hindex).symm

theorem size_identity {size : Nat} (hword : size < 4294967296) : (identity size).size = size := by
  unfold Renumbering.size identity
  rw [Nat.mod_eq_of_lt hword, Array.size_range]

theorem target_identity {size : Nat} (hword : size < 4294967296) (hindex : index < size) :
    (identity size).target index = index := by
  refine target_of_toList ?_
  unfold toList identity
  rw [Nat.mod_eq_of_lt hword, Array.toList_range, List.getElem?_range hindex]

/-- The identity keeps every index of a dictionary that grows. -/
theorem carries_identity {source result : Dictionary} (hextends : result.Extends source)
    (hword : source.size < 4294967296) :
    (identity source.size).Carries source result fun _ ↦ True := by
  refine ⟨Nat.le_of_eq (size_identity hword).symm, ?_, target_identity hword (Nat.succ_pos _), ?_⟩
  · refine Nat.lt_of_le_of_lt (maxTarget_le_iff.mpr fun target htarget ↦ ?_)
      (Nat.lt_succ_of_le hextends.size_le)
    unfold toList identity at htarget
    rw [Nat.mod_eq_of_lt hword, Array.toList_range] at htarget
    exact Nat.le_of_lt_succ (List.mem_range.mp htarget)
  · rintro index hindex -
    rw [target_identity hword (Nat.lt_succ_of_le hindex), hextends.get?_of_le hindex]

end Renumbering

namespace Dictionary

variable {dictionary : Dictionary}

theorem maxIndex_of_toList {texts : List String} (h : dictionary.texts.toList = texts) :
    dictionary.maxIndex = texts.length :=
  h ▸ Array.length_toList.symm

theorem nodup_texts (dictionary : Dictionary) : dictionary.texts.toList.Nodup := by
  refine List.pairwise_iff_getElem.mpr fun first second hfirst hsecond hlt heq ↦ ?_
  have hget {position : Nat} (hposition : position < dictionary.texts.toList.length) :
      dictionary.get? (position + 1) = some dictionary.texts.toList[position] := by
    rw [← List.getElem?_eq_getElem hposition, Array.getElem?_toList]
    rfl
  have hsame := index_unique (hget hfirst) ((hget hsecond).trans (congrArg some heq.symm))
  omega

/-- Appends a text that must not be there yet. -/
def pushNew (dictionary : Dictionary) (text : String) : Outcome Dictionary :=
  match h : dictionary.index[text]? with
  | some _ =>
    let index := dictionary.size
    .error (.invalidArgument "values" s!"duplicate dictionary value at index {index}")
  | none => .ok (dictionary.push text h)

theorem ofList_eq (texts : List String) : ofList texts =
    (Fault.require "values" "values.len() < i32::MAX as usize"
      (texts.length < IndexFormat.int32.maxIndex) >>= fun _ ↦ texts.foldlM pushNew empty) := rfl

theorem exists_pushNew {text : String} (h : text ∉ dictionary.texts.toList) :
    ∃ next, dictionary.pushNew text = .ok next ∧
      next.texts.toList = dictionary.texts.toList ++ [text] := by
  unfold pushNew
  split
  · next position hposition =>
    have htext := (dictionary.index_eq text position).mp hposition
    exact absurd (Array.mem_toList_iff.mpr (Array.mem_of_getElem? htext)) h
  · exact ⟨_, rfl, Array.toList_push⟩

theorem exists_foldlM_pushNew (dictionary : Dictionary) {texts : List String}
    (hdistinct : (dictionary.texts.toList ++ texts).Nodup) :
    ∃ result, texts.foldlM pushNew dictionary = .ok result ∧
      result.texts.toList = dictionary.texts.toList ++ texts := by
  induction texts generalizing dictionary with
  | nil => exact ⟨dictionary, rfl, (List.append_nil _).symm⟩
  | cons text texts ih =>
    have habsent : text ∉ dictionary.texts.toList := fun hmem ↦
      (List.nodup_append.mp hdistinct).2.2 text hmem text List.mem_cons_self rfl
    obtain ⟨next, hnext, htexts⟩ := exists_pushNew habsent
    rw [List.append_cons, ← htexts] at hdistinct
    obtain ⟨result, hresult, hlist⟩ := ih next hdistinct
    refine ⟨result, ?_, ?_⟩
    · rw [List.foldlM_cons, hnext]
      exact hresult
    · rw [hlist, htexts, ← List.append_cons]

/-- Distinct texts make a dictionary as long as there are few enough of them. -/
theorem exists_ofList {texts : List String} (hdistinct : texts.Nodup)
    (hroom : texts.length < IndexFormat.int32.maxIndex) :
    ∃ dictionary, ofList texts = .ok dictionary ∧ dictionary.texts.toList = texts := by
  obtain ⟨dictionary, hdictionary, htexts⟩ := exists_foldlM_pushNew empty hdistinct
  refine ⟨dictionary, ?_, htexts⟩
  rw [ofList_eq, Fault.require, if_pos (decide_eq_true hroom)]
  exact hdictionary

theorem ofList_of_full {texts : List String} (hfull : IndexFormat.int32.maxIndex ≤ texts.length) :
    ofList texts = .error (.invalidArgument "values" "values.len() < i32::MAX as usize") := by
  rw [ofList_eq, Fault.require, decide_eq_false (Nat.not_lt.mpr hfull)]
  rfl

/-! ### Reordering -/

/-- Texts that go to different free slots all get there, and no other slot changes. -/
theorem exists_permuteInto (slots : Array (Option String)) {moves : List (String × Nat × Nat)}
    (hdistinct : (moves.map (·.2.1)).Nodup)
    (hfree : ∀ move ∈ moves, 0 < move.2.1 ∧ slots[move.2.1 - 1]? = some none) :
    ∃ filled, permuteInto slots moves = .ok filled ∧ filled.size = slots.size ∧
      (∀ move ∈ moves, filled[move.2.1 - 1]? = some (some move.1)) ∧
      ∀ place, place + 1 ∉ moves.map (·.2.1) → filled[place]? = slots[place]? := by
  induction moves generalizing slots with
  | nil => exact ⟨slots, rfl, rfl, nofun, fun _ _ ↦ rfl⟩
  | cons move moves ih =>
    obtain ⟨text, new, old⟩ := move
    obtain ⟨hnew, hrest⟩ := List.nodup_cons.mp hdistinct
    obtain ⟨⟨hpositive, hslot⟩, hmoves⟩ := List.forall_mem_cons.mp hfree
    obtain ⟨place, rfl⟩ := Nat.exists_eq_succ_of_ne_zero (Nat.ne_of_gt hpositive)
    have hplace : place < slots.size := (Array.getElem?_eq_some_iff.mp hslot).1
    have hkept {other : Nat} (hother : other ≠ place) :
        (slots.setIfInBounds place (some text))[other]? = slots[other]? :=
      Array.getElem?_setIfInBounds_ne hother.symm
    obtain ⟨filled, hfilled, hsize, hmoved, hothers⟩ :=
      ih (slots.setIfInBounds place (some text)) hrest fun move hmove ↦ by
        obtain ⟨hpositive, hslot⟩ := hmoves move hmove
        refine ⟨hpositive, ?_⟩
        rw [hkept, hslot]
        rintro rfl
        refine hnew (List.mem_map.mpr ⟨move, hmove, ?_⟩)
        show move.2.1 = move.2.1 - 1 + 1
        omega
    refine ⟨filled, ?_, ?_, ?_, ?_⟩
    · unfold permuteInto
      change slots[place]? = some none at hslot
      rw [if_neg (by simpa using Nat.succ_le_of_lt hplace), Nat.succ_sub_one, hslot]
      exact hfilled
    · rw [hsize, Array.size_setIfInBounds]
    · refine List.forall_mem_cons.mpr ⟨?_, hmoved⟩
      show filled[place]? = some (some text)
      rw [hothers place hnew, Array.getElem?_setIfInBounds_self_of_lt hplace]
    · intro other hother
      rw [List.map_cons, List.mem_cons, not_or] at hother
      rw [hothers other hother.2, hkept fun heq ↦ hother.1 (congrArg Nat.succ heq)]

/-- Slots that are all taken hold a text each. -/
theorem map_some_filterMap_id {slots : List (Option String)} (h : none ∉ slots) :
    (slots.filterMap id).map some = slots := by
  induction slots with
  | nil => rfl
  | cons slot slots ih =>
    rw [List.mem_cons, not_or] at h
    cases slot with
    | none => exact absurd rfl h.1
    | some text => exact congrArg (some text :: ·) (ih h.2)

/-- What a permutation asks for: every text with its new and its old index. -/
def moves (dictionary : Dictionary) (targets : List Nat) : List (String × Nat × Nat) :=
  dictionary.texts.toList.zip (targets.zipIdx 1)

theorem map_moves {targets : List Nat} (hlength : targets.length = dictionary.texts.size) :
    (dictionary.moves targets).map (·.2.1) = targets := by
  have hsnd : (dictionary.moves targets).map Prod.snd = targets.zipIdx 1 :=
    List.map_snd_zip (by simp [hlength])
  calc (dictionary.moves targets).map (·.2.1)
      = ((dictionary.moves targets).map Prod.snd).map Prod.fst := (List.map_map).symm
    _ = targets := by rw [hsnd, List.zipIdx_map_fst]

theorem mem_moves {targets : List Nat} {position target : Nat} {text : String}
    (htarget : targets[position]? = some target)
    (htext : dictionary.texts.toList[position]? = some text) :
    (text, target, position + 1) ∈ dictionary.moves targets := by
  refine List.mem_iff_getElem?.mpr ⟨position, List.getElem?_zip_eq_some.mpr ⟨htext, ?_⟩⟩
  rw [List.getElem?_zipIdx, htarget, Option.map_some, Nat.add_comm]

/-- The targets of a permutation that keeps `0` are all indices of texts, each once. -/
theorem targets_perm {targets : List Nat}
    (hpermutation : (0 :: targets).Perm (List.range dictionary.size)) :
    targets.Perm ((List.range dictionary.texts.size).map Nat.succ) := by
  rw [size, List.range_succ_eq_map] at hpermutation
  exact hpermutation.cons_inv

/-- A permutation that keeps `0` fills all slots: each has the text that was moved to it. -/
theorem exists_permuteInto_moves {targets : List Nat}
    (hpermutation : (0 :: targets).Perm (List.range dictionary.size)) :
    ∃ filled, permuteInto (Array.replicate dictionary.texts.size none) (dictionary.moves targets) =
        .ok filled ∧ filled.size = dictionary.texts.size ∧
      targets.map (fun target ↦ filled[target - 1]?) =
        dictionary.texts.toList.map fun text ↦ some (some text) := by
  have htargets := targets_perm hpermutation
  have hlength : targets.length = dictionary.texts.size := by simpa using htargets.length_eq
  have hdistinct : targets.Nodup := (List.nodup_cons.mp (hpermutation.nodup_iff.mpr
    List.nodup_range)).2
  obtain ⟨filled, hfilled, hsize, hmoved, -⟩ := exists_permuteInto
      (Array.replicate dictionary.texts.size none) ((map_moves hlength).symm ▸ hdistinct)
      fun move hmove ↦ by
    have hmem : move.2.1 ∈ targets := map_moves hlength ▸ List.mem_map_of_mem hmove
    obtain ⟨place, hplace, heq⟩ := List.mem_map.mp (htargets.mem_iff.mp hmem)
    rw [← heq]
    refine ⟨Nat.succ_pos place, ?_⟩
    rw [Nat.succ_sub_one, Array.getElem?_replicate, if_pos (List.mem_range.mp hplace)]
  refine ⟨filled, hfilled, hsize.trans Array.size_replicate, List.ext_getElem? fun position ↦ ?_⟩
  rw [List.getElem?_map, List.getElem?_map]
  by_cases hposition : position < dictionary.texts.toList.length
  · have htarget : targets[position]? = some _ :=
      List.getElem?_eq_getElem (hlength.symm ▸ hposition)
    have htext := List.getElem?_eq_getElem hposition
    rw [htarget, htext]
    exact congrArg some (hmoved _ (mem_moves htarget htext))
  · have hle := Nat.not_lt.mp hposition
    rw [List.getElem?_eq_none hle, List.getElem?_eq_none (hlength.symm ▸ hle)]
    rfl

/-- A permutation that keeps `0` leads to the dictionary of the same texts in another order. -/
theorem exists_remap_eq_ofList {permutation : List Nat}
    (hpermutation : permutation.Perm (List.range dictionary.size))
    (hzero : permutation.head? = some 0) :
    ∃ targets texts : List _, permutation = 0 :: targets ∧ texts.Perm dictionary.texts.toList ∧
      (∀ remapped : Dictionary, remapped.texts.toList = texts →
        targets.map remapped.get? = dictionary.texts.toList.map some) ∧
      dictionary.remap permutation =
        (ofList texts >>= fun remapped ↦ .ok (remapped, ⟨permutation.toArray⟩)) := by
  obtain ⟨targets, rfl⟩ := List.head?_eq_some_iff.mp hzero
  have hlength : (0 :: targets).length = dictionary.size := by
    simpa using hpermutation.length_eq
  have htargets := targets_perm hpermutation
  obtain ⟨filled, hfilled, hsize, hslots⟩ := exists_permuteInto_moves hpermutation
  -- Read in the order of the slots, the texts that were moved are the filled slots.
  have hperm : filled.toList.Perm (dictionary.texts.toList.map some) := by
    have hall : (List.range dictionary.texts.size).map (filled[·]?) = filled.toList.map some := by
      refine List.ext_getElem? fun place ↦ ?_
      rw [← hsize]
      by_cases hplace : place < filled.size <;> simp [hplace]
    have hmap := htargets.map fun target ↦ filled[target - 1]?
    rw [hslots, List.map_map] at hmap
    change List.Perm _ ((List.range dictionary.texts.size).map (filled[·]?)) at hmap
    rw [hall] at hmap
    simpa using (hmap.filterMap id).symm
  have htexts : (filled.toList.filterMap id).map some = filled.toList :=
    map_some_filterMap_id fun hmem ↦ by simpa using hperm.mem_iff.mp hmem
  refine ⟨targets, filled.toList.filterMap id, rfl, ?_, ?_, ?_⟩
  · simpa using hperm.filterMap id
  · intro remapped hremapped
    have hget : ∀ target ∈ targets, remapped.get? target = (filled[target - 1]?).join := by
      intro target htarget
      obtain ⟨place, -, rfl⟩ := List.mem_map.mp (htargets.mem_iff.mp htarget)
      have hplace := congrArg (·[place]?) htexts
      rw [← hremapped, List.getElem?_map, Array.getElem?_toList, Array.getElem?_toList] at hplace
      show remapped.texts[place]? = (filled[place]?).join
      rw [← hplace]
      cases remapped.texts[place]? <;> rfl
    calc targets.map remapped.get?
        = (targets.map fun target ↦ filled[target - 1]?).map Option.join := by
          rw [List.map_map]
          exact List.map_congr_left hget
      _ = dictionary.texts.toList.map some := by
          rw [hslots, List.map_map]
          rfl
  · unfold remap Fault.require
    rw [if_pos (decide_eq_true hlength)]
    simp only [List.head?_cons, decide_true, if_true, Outcome.ok_bind, List.tail_cons]
    change permuteInto _ (dictionary.moves targets) >>= _ = _
    rw [hfilled]
    rfl

/-- Reordering by a permutation that keeps `0` keeps every text. -/
theorem exists_remap {permutation : List Nat}
    (hpermutation : permutation.Perm (List.range dictionary.size))
    (hzero : permutation.head? = some 0) (hroom : dictionary.size ≤ rowLimit) :
    ∃ remapped renumbering, dictionary.remap permutation = .ok (remapped, renumbering) ∧
      remapped.maxIndex = dictionary.maxIndex ∧
      renumbering.Carries dictionary remapped fun _ ↦ True := by
  obtain ⟨targets, texts, rfl, hperm, htargets, hremap⟩ :=
    exists_remap_eq_ofList hpermutation hzero
  have hlength : texts.length = dictionary.texts.size := hperm.length_eq
  obtain ⟨remapped, hremapped, htexts⟩ :=
    exists_ofList (hperm.nodup_iff.mpr dictionary.nodup_texts) (hlength ▸ hroom)
  refine ⟨remapped, ⟨(0 :: targets).toArray⟩, ?_, ?_,
    Renumbering.carries_of_toList rfl (htargets remapped htexts)⟩
  · rw [hremap, hremapped]
    rfl
  · exact (maxIndex_of_toList htexts).trans hlength

/-- A dictionary with no room to spare cannot be reordered. -/
theorem remap_of_full {permutation : List Nat}
    (hpermutation : permutation.Perm (List.range dictionary.size))
    (hzero : permutation.head? = some 0) (hfull : rowLimit < dictionary.size) :
    dictionary.remap permutation =
      .error (.invalidArgument "values" "values.len() < i32::MAX as usize") := by
  obtain ⟨targets, texts, -, hperm, -, hremap⟩ := exists_remap_eq_ofList hpermutation hzero
  have hlength : texts.length = dictionary.texts.size := hperm.length_eq
  rw [hremap, ofList_of_full (hlength ▸ Nat.le_of_lt_succ hfull)]
  rfl

/-! ### Uniting -/

/-- Entering texts collects an index for each of them, in a dictionary that only grows. -/
theorem enterAll_spec (dictionary : Dictionary) (indices : Array Nat) (texts : List String) :
    (dictionary.enterAll indices texts).1.Extends dictionary ∧
      ∃ entered, (dictionary.enterAll indices texts).2.toList = indices.toList ++ entered ∧
        entered.map (dictionary.enterAll indices texts).1.get? = texts.map some := by
  induction texts generalizing dictionary indices with
  | nil => exact ⟨fun _ _ h ↦ h, [], (List.append_nil _).symm, rfl⟩
  | cons text texts ih =>
    obtain ⟨hextends, -, hget⟩ := dictionary.enter_spec text
    obtain ⟨hrest, entered, hindices, htexts⟩ :=
      ih (dictionary.enter text).2 (indices.push (dictionary.enter text).1)
    refine ⟨fun position other h ↦ hrest _ _ (hextends _ _ h),
      (dictionary.enter text).1 :: entered, ?_, ?_⟩
    · rw [Array.toList_push, ← List.append_cons] at hindices
      exact hindices
    · rw [List.map_cons, List.map_cons]
      exact congr (congrArg List.cons (hrest.get? hget)) htexts

/-- A union has the entries of its first dictionary under their indices. -/
theorem merge_extends (dictionary other : Dictionary) :
    (dictionary.merge other).1.Extends dictionary :=
  (dictionary.enterAll_spec #[0] other.texts.toList).1

/-- A union keeps the texts of its second dictionary under the indices that it answers with. -/
theorem carries_merge (dictionary other : Dictionary) :
    (dictionary.merge other).2.Carries other (dictionary.merge other).1 fun _ ↦ True := by
  obtain ⟨-, entered, hindices, htexts⟩ := dictionary.enterAll_spec #[0] other.texts.toList
  exact Renumbering.carries_of_toList hindices htexts

/-! ### Compacting -/

/-- The index occurs. -/
def Used (usage : List Nat) (index : Nat) : Prop := ∃ count, usage[index]? = some count ∧ 0 < count

/-- When every text is used, there is nothing to drop. -/
theorem compact_of_used {current : Shared Dictionary} {usage : List Nat}
    (hlength : usage.length = current.value.size)
    (hused : ∀ index, 0 < index → index < current.value.size → Used usage index) (fresh : Token) :
    compact current usage fresh = .ok (current, .identity current.value.size) := by
  have hall : usage.tail.all (0 < ·) := by
    refine List.all_eq_true.mpr fun count hcount ↦ decide_eq_true ?_
    obtain ⟨position, hposition⟩ := List.mem_iff_getElem?.mp hcount
    rw [List.getElem?_tail] at hposition
    have hindex : position + 1 < current.value.size :=
      hlength ▸ (List.getElem?_eq_some_iff.mp hposition).1
    obtain ⟨other, hother, hpositive⟩ := hused _ (Nat.succ_pos position) hindex
    rw [hposition] at hother
    exact Option.some.inj hother ▸ hpositive
  unfold compact Fault.require
  simp only [hlength, decide_true, if_true, Outcome.ok_bind, hall]
  rfl

/-- The texts that are used. -/
def usedTexts (texts : List String) (counts : List Nat) : List String :=
  (texts.zip counts).filterMap fun (text, count) ↦ if 0 < count then some text else none

theorem length_compactTargets (next : Nat) (counts : List Nat) :
    (compactTargets next counts).length = counts.length := by
  induction counts generalizing next with
  | nil => rfl
  | cons count counts ih =>
    unfold compactTargets
    split
    · exact congrArg (· + 1) (ih (next + 1))
    · exact congrArg (· + 1) (ih next)

theorem compactTargets_pos_iff {counts : List Nat} {next position target : Nat} (hnext : 0 < next)
    (htarget : (compactTargets next counts)[position]? = some target) :
    0 < target ↔ Used counts position := by
  induction counts generalizing next position with
  | nil => contradiction
  | cons count counts ih =>
    unfold compactTargets at htarget
    split at htarget
    · next hcount =>
      cases position with
      | zero =>
        cases htarget
        exact iff_of_true hnext ⟨count, rfl, hcount⟩
      | succ position => exact ih (Nat.succ_pos next) htarget
    · next hcount =>
      cases position with
      | zero =>
        cases htarget
        refine iff_of_false (Nat.lt_irrefl 0) ?_
        rintro ⟨other, hother, hpositive⟩
        cases hother
        exact hcount hpositive
      | succ position => exact ih hnext htarget

/-- In order, the used texts are numbered without gaps. -/
theorem filter_zip_compactTargets {texts : List String} {counts : List Nat} {next : Nat}
    (hnext : 0 < next) :
    (texts.zip (compactTargets next counts)).filter (0 < ·.2) =
      (usedTexts texts counts).zipIdx next := by
  induction counts generalizing texts next with
  | nil => simp [compactTargets, usedTexts]
  | cons count counts ih =>
    cases texts with
    | nil => rfl
    | cons text texts =>
      by_cases hcount : 0 < count
      · have hused : usedTexts (text :: texts) (count :: counts) =
            text :: usedTexts texts counts := by simp [usedTexts, hcount]
        rw [hused, compactTargets, if_pos hcount, List.zip_cons_cons,
          List.filter_cons_of_pos (by simpa using hnext), ih (Nat.succ_pos next), List.zipIdx_cons]
      · have hused : usedTexts (text :: texts) (count :: counts) = usedTexts texts counts := by
          simp [usedTexts, hcount]
        rw [hused, compactTargets, if_neg hcount, List.zip_cons_cons,
          List.filter_cons_of_neg (by simp), ih hnext]

/-- A used text is found at its target. -/
theorem exists_place_of_used {texts : List String} {counts : List Nat} {position : Nat}
    {text : String} (htext : texts[position]? = some text) (hused : Used counts position) :
    ∃ place, (compactTargets 1 counts)[position]? = some (place + 1) ∧
      (usedTexts texts counts)[place]? = some text := by
  obtain ⟨count, hcount, hpositive⟩ := id hused
  have hlength : position < (compactTargets 1 counts).length :=
    length_compactTargets 1 counts ▸ (List.getElem?_eq_some_iff.mp hcount).1
  have htarget := List.getElem?_eq_getElem hlength
  have hnonzero := (compactTargets_pos_iff Nat.one_pos htarget).mpr hused
  obtain ⟨place, hplace⟩ := Nat.exists_eq_succ_of_ne_zero (Nat.ne_of_gt hnonzero)
  rw [hplace] at htarget
  have hmem : (text, place + 1) ∈ (texts.zip (compactTargets 1 counts)).filter (0 < ·.2) :=
    List.mem_filter.mpr ⟨List.mem_iff_getElem?.mpr ⟨position,
      List.getElem?_zip_eq_some.mpr ⟨htext, htarget⟩⟩, by simp⟩
  rw [filter_zip_compactTargets Nat.one_pos] at hmem
  exact ⟨place, htarget, (List.mk_mem_zipIdx_iff_le_and_getElem?_sub.mp hmem).2⟩

/-- Every text that is left was used. -/
theorem exists_used_of_place {texts : List String} {counts : List Nat} {place : Nat}
    (hplace : place < (usedTexts texts counts).length) :
    ∃ position, Used counts position ∧ (compactTargets 1 counts)[position]? = some (place + 1) := by
  have hmem : ((usedTexts texts counts)[place], place + 1) ∈ (usedTexts texts counts).zipIdx 1 :=
    List.mk_mem_zipIdx_iff_le_and_getElem?_sub.mpr
      ⟨Nat.le_add_left 1 place, List.getElem?_eq_getElem hplace⟩
  rw [← filter_zip_compactTargets Nat.one_pos] at hmem
  obtain ⟨position, hposition⟩ := List.mem_iff_getElem?.mp (List.mem_filter.mp hmem).1
  have htarget := (List.getElem?_zip_eq_some.mp hposition).2
  exact ⟨position, (compactTargets_pos_iff Nat.one_pos htarget).mp (Nat.succ_pos place), htarget⟩

theorem usedTexts_sublist {texts : List String} {counts : List Nat}
    (hlength : counts.length = texts.length) : (usedTexts texts counts).Sublist texts := by
  have hmap := (List.filter_sublist (p := (0 < ·.2))
    (l := texts.zip (compactTargets 1 counts))).map Prod.fst
  rwa [filter_zip_compactTargets Nat.one_pos, List.zipIdx_map_fst,
    List.map_fst_zip (by simp [length_compactTargets, hlength])] at hmap

/-- An unused text is dropped. -/
theorem length_usedTexts_lt {texts : List String} {counts : List Nat} {position : Nat}
    (hlength : counts.length = texts.length) (hposition : position < texts.length)
    (hunused : ¬Used counts position) : (usedTexts texts counts).length < texts.length := by
  have hzipLength : (texts.zip (compactTargets 1 counts)).length = texts.length := by
    simp [length_compactTargets, hlength]
  have hfewer : ((texts.zip (compactTargets 1 counts)).filter (0 < ·.2)).length <
      (texts.zip (compactTargets 1 counts)).length := by
    refine List.length_filter_lt_length_iff_exists.mpr
      ⟨_, List.getElem_mem (hzipLength ▸ hposition), fun hpositive ↦ hunused ?_⟩
    rw [List.getElem_zip] at hpositive
    exact (compactTargets_pos_iff Nat.one_pos (List.getElem?_eq_getElem _)).mp
      (of_decide_eq_true hpositive)
  rwa [filter_zip_compactTargets Nat.one_pos, List.length_zipIdx, hzipLength] at hfewer

/-- The table of a compaction carries the used indices to the dictionary of the used texts. -/
theorem carries_compactTargets {source compacted : Dictionary} {missing : Nat} {counts : List Nat}
    (hcounts : counts.length = source.texts.toList.length)
    (htexts : compacted.texts.toList = usedTexts source.texts.toList counts) :
    (Renumbering.mk (0 :: compactTargets 1 counts).toArray).Carries source compacted
      (Used (missing :: counts)) := by
  have hget {place : Nat} {text : String}
      (h : (usedTexts source.texts.toList counts)[place]? = some text) :
      compacted.get? (place + 1) = some text := by
    rw [← htexts, Array.getElem?_toList] at h
    exact h
  have htext {position : Nat} (hposition : position < source.texts.toList.length) :=
    List.getElem?_eq_getElem hposition
  have hsize : (compactTargets 1 counts).length = source.texts.toList.length :=
    (length_compactTargets 1 counts).trans hcounts
  refine ⟨?_, ?_, rfl, ?_⟩
  · show source.texts.size + 1 ≤ (0 :: compactTargets 1 counts).toArray.size
    rw [← Array.length_toList, ← hsize]
    exact Nat.le_refl _
  · refine Nat.lt_succ_of_le (Renumbering.maxTarget_le_iff.mpr fun target htarget ↦ ?_)
    rcases List.mem_cons.mp htarget with rfl | htarget
    · exact Nat.zero_le _
    · obtain ⟨position, hposition, rfl⟩ := List.mem_iff_getElem.mp htarget
      rcases Nat.eq_zero_or_pos (compactTargets 1 counts)[position] with hzero | hpositive
      · rw [hzero]
        exact Nat.zero_le _
      · have hused := (compactTargets_pos_iff Nat.one_pos (List.getElem?_eq_getElem hposition)).mp
          hpositive
        obtain ⟨place, hplace, hkept⟩ := exists_place_of_used (htext (hsize ▸ hposition)) hused
        rw [List.getElem?_eq_getElem hposition] at hplace
        rw [Option.some.inj hplace]
        exact le_maxIndex_of_get? (hget hkept)
  · intro index hindex hused
    cases index with
    | zero => rfl
    | succ position =>
      have hsource := htext hindex
      obtain ⟨place, hplace, hkept⟩ := exists_place_of_used hsource hused
      have htarget : (Renumbering.mk (0 :: compactTargets 1 counts).toArray).target (position + 1) =
          place + 1 := Renumbering.target_of_toList hplace
      rw [htarget, hget hkept, ← hsource, Array.getElem?_toList]
      rfl

/-- When a text is not used, compacting makes a dictionary of those that are. -/
theorem compact_of_unused {current : Shared Dictionary} (missing : Nat) {counts : List Nat}
    {position : Nat} (hcounts : counts.length = current.value.texts.toList.length)
    (hposition : position < counts.length) (hunused : ¬Used counts position) (fresh : Token) :
    compact current (missing :: counts) fresh =
      (ofList (usedTexts current.value.texts.toList counts) >>= fun compacted ↦
        .ok (⟨fresh, compacted⟩, ⟨(0 :: compactTargets 1 counts).toArray⟩)) := by
  have hlength : (missing :: counts).length = current.value.size := congrArg (· + 1) hcounts
  have hall : counts.all (0 < ·) = false := by
    refine List.all_eq_false.mpr ⟨counts[position], List.getElem_mem hposition, fun hpositive ↦ ?_⟩
    exact hunused ⟨_, List.getElem?_eq_getElem hposition, of_decide_eq_true hpositive⟩
  unfold compact Fault.require
  simp only [hlength, decide_true, if_true, Outcome.ok_bind, List.tail_cons, hall]
  rfl

/-- With room, there is such a dictionary. -/
theorem exists_compact_of_unused {current : Shared Dictionary} (missing : Nat) {counts : List Nat}
    {position : Nat} (hcounts : counts.length = current.value.texts.toList.length)
    (hroom : (usedTexts current.value.texts.toList counts).length < IndexFormat.int32.maxIndex)
    (hposition : position < counts.length) (hunused : ¬Used counts position) (fresh : Token) :
    ∃ compacted : Dictionary, compact current (missing :: counts) fresh =
        .ok (⟨fresh, compacted⟩, ⟨(0 :: compactTargets 1 counts).toArray⟩) ∧
      compacted.texts.toList = usedTexts current.value.texts.toList counts := by
  obtain ⟨compacted, hcompacted, htexts⟩ := exists_ofList
    ((usedTexts_sublist hcounts).nodup current.value.nodup_texts) hroom
  refine ⟨compacted, ?_, htexts⟩
  rw [compact_of_unused missing hcounts hposition hunused, hcompacted]
  rfl

/-- Compacting keeps the texts of the used indices and leaves an index for nothing else. -/
theorem exists_compact {current : Shared Dictionary} {usage : List Nat}
    (hlength : usage.length = current.value.size)
    (hroom : current.value.maxIndex ≤ IndexFormat.int32.maxIndex) (fresh : Token) :
    ∃ compacted renumbering, compact current usage fresh = .ok (compacted, renumbering) ∧
      compacted.value.maxIndex ≤ current.value.maxIndex ∧
      renumbering.Carries current.value compacted.value (Used usage) ∧
      ∀ index, 0 < index → index ≤ compacted.value.maxIndex →
        ∃ source, Used usage source ∧ renumbering.target source = index := by
  cases usage with
  | nil => contradiction
  | cons missing counts =>
    have hcounts : counts.length = current.value.texts.toList.length := Nat.succ.inj hlength
    by_cases hused : ∀ position < counts.length, Used counts position
    · have hword : current.value.size < 4294967296 := by
        have hsize : current.value.size ≤ IndexFormat.int32.maxIndex + 1 := Nat.succ_le_succ hroom
        exact Nat.lt_of_le_of_lt hsize (by decide)
      have hall (index : Nat) (hindex : 0 < index) (hlt : index < current.value.size) :
          Used (missing :: counts) index := by
        obtain ⟨position, rfl⟩ := Nat.exists_eq_succ_of_ne_zero (Nat.ne_of_gt hindex)
        exact hused position (hcounts ▸ Nat.lt_of_succ_lt_succ hlt)
      exact ⟨current, _, compact_of_used hlength hall fresh, Nat.le_refl _,
        (Renumbering.carries_identity (fun _ _ h ↦ h) hword).mono fun _ _ ↦ trivial,
        fun index hindex hle ↦ ⟨index, hall index hindex (Nat.lt_succ_of_le hle),
          Renumbering.target_identity hword (Nat.lt_succ_of_le hle)⟩⟩
    · simp only [Classical.not_forall] at hused
      obtain ⟨position, hposition, hunused⟩ := hused
      have hfewer := length_usedTexts_lt hcounts (hcounts ▸ hposition) hunused
      obtain ⟨compacted, hcompacted, htexts⟩ := exists_compact_of_unused missing hcounts
        (Nat.lt_of_lt_of_le hfewer hroom) hposition hunused fresh
      have hsize := maxIndex_of_toList htexts
      refine ⟨_, _, hcompacted, ?_, carries_compactTargets hcounts htexts,
        fun index hindex hle ↦ ?_⟩
      · exact hsize ▸ (usedTexts_sublist hcounts).length_le
      · obtain ⟨place, rfl⟩ := Nat.exists_eq_succ_of_ne_zero (Nat.ne_of_gt hindex)
        obtain ⟨position, hused, htarget⟩ := exists_used_of_place (hsize ▸ hle)
        exact ⟨position + 1, hused, Renumbering.target_of_toList htarget⟩

end Dictionary

end Columnar
