import Columnar.Proofs.Dictionary.Uniting
import Columnar.Proofs.Sparse.Encoding

/-!
# Compacting dictionaries

Compacting picks the used indices of a dictionary, in order (`usedIndices`). What it makes and what
its table says are two readings of that one selection: the texts that are kept are the texts of the
used indices, and the targets of the used indices are the numbers from `1` on without a gap
(`Drops`). When every index is used, nothing is made at all: the answer is the very same dictionary
with the identity, and this is the only case in which either comes back (`compacts`). Unions can
outgrow both: what one of them keeps can be too much for a dictionary, and the identity has no room
for more indices than a word of 32 bits counts (`exists_compact_overfull`).
-/

set_option autoImplicit false
set_option relaxedAutoImplicit false

namespace Columnar

namespace Dictionary

instance (usage : List Nat) (index : Nat) : Decidable (Used usage index) :=
  decidable_of_iff (0 < usage[index]?.getD 0) (by
    unfold Used
    cases usage[index]? <;> simp)

/-- The indices of texts that are used, in order. -/
def usedIndices (dictionary : Dictionary) (usage : List Nat) : List Nat :=
  (List.range' 1 dictionary.maxIndex).filter (Used usage ·)

/-- Every text is used. -/
def AllUsed (dictionary : Dictionary) (usage : List Nat) : Prop :=
  ∀ index, 0 < index → index < dictionary.size → Used usage index

/-- What picks the used ones from a list with an item for each text comes to the used indices. -/
theorem map_usedIndices {α β : Type} {dictionary : Dictionary} {usage : List Nat} {items : List α}
    {pick : α → Option β} (cell : Nat → β) (hlength : items.length = dictionary.maxIndex)
    (h : ∀ position item, items[position]? = some item →
      pick item = if Used usage (position + 1) then some (cell (position + 1)) else none) :
    (dictionary.usedIndices usage).map cell = items.filterMap pick := by
  have hpicked : pickedFrom pick 1 items =
      (dictionary.usedIndices usage).map fun index ↦ (index, cell index) := by
    unfold usedIndices
    rw [← hlength]
    refine pickedFrom_eq_map_filter _ cell fun position item hitem ↦ ?_
    rw [h position item hitem, Nat.add_comm]
    simp
  rw [← map_snd_pickedFrom items 1, hpicked, List.map_map]
  rfl

section Counts

variable {source compacted : Dictionary} {missing : Nat} {counts : List Nat}

/-- The texts that compacting keeps are those of the used indices. -/
theorem map_get?_usedIndices (missing : Nat)
    (hcounts : counts.length = source.texts.toList.length) :
    (source.usedIndices (missing :: counts)).map source.get? =
      (usedTexts source.texts.toList counts).map some := by
  unfold usedTexts
  rw [List.map_filterMap]
  refine map_usedIndices source.get? ?_ fun position item hitem ↦ ?_
  · rw [List.length_zip, hcounts, Nat.min_self, Array.length_toList]
    rfl
  · obtain ⟨htext, hcount⟩ := List.getElem?_zip_eq_some.mp hitem
    rw [Array.getElem?_toList] at htext
    have hget : source.get? (position + 1) = some item.1 := htext
    have hused : Used (missing :: counts) (position + 1) ↔ 0 < item.2 := by
      simp [Used, hcount]
    rw [hget]
    by_cases hpositive : 0 < item.2 <;> simp [hpositive, hused]

theorem length_usedIndices (hcounts : counts.length = source.texts.toList.length) :
    (source.usedIndices (missing :: counts)).length =
      (usedTexts source.texts.toList counts).length := by
  simpa using congrArg List.length (map_get?_usedIndices missing hcounts)

/-- The used ones are numbered from `1` without gaps. -/
theorem filter_compactTargets {texts : List String} (hcounts : counts.length = texts.length) :
    (compactTargets 1 counts).filter (0 < ·) = List.range' 1 (usedTexts texts counts).length := by
  have hsnd : (texts.zip (compactTargets 1 counts)).map Prod.snd = compactTargets 1 counts :=
    List.map_snd_zip (Nat.le_of_eq ((length_compactTargets 1 counts).trans hcounts))
  calc (compactTargets 1 counts).filter (0 < ·)
      = ((texts.zip (compactTargets 1 counts)).filter (0 < ·.2)).map Prod.snd := by
        rw [← hsnd, List.filter_map, hsnd]
        rfl
    _ = List.range' 1 (usedTexts texts counts).length := by
        rw [filter_zip_compactTargets Nat.one_pos, List.zipIdx_map_snd]

theorem get?_compactTargets {position target : Nat}
    (h : (compactTargets 1 counts)[position]? = some target) :
    (Renumbering.mk (0 :: compactTargets 1 counts).toArray).get? (position + 1) = some target :=
  (List.getElem?_toArray).trans h

example : compactTargets 1 [0, 3, 0, 1, 1] = [0, 1, 0, 2, 3] := rfl

/-- The target of each used index is the next number. -/
theorem map_get?_compactTargets (hcounts : counts.length = source.texts.toList.length) :
    (source.usedIndices (missing :: counts)).map
        (Renumbering.mk (0 :: compactTargets 1 counts).toArray).get? =
      (List.range' 1 (usedTexts source.texts.toList counts).length).map some := by
  have hpick : ((compactTargets 1 counts).filter (0 < ·)).map some =
      (compactTargets 1 counts).filterMap fun target ↦
        if 0 < target then some (some target) else none := by
    rw [← List.filterMap_eq_map, List.filterMap_filter]
    simp
  rw [← filter_compactTargets hcounts, hpick]
  refine map_usedIndices _ ?_ fun position target htarget ↦ ?_
  · rw [length_compactTargets, hcounts, Array.length_toList]
    rfl
  · have hused : Used (missing :: counts) (position + 1) ↔ 0 < target :=
      (compactTargets_pos_iff Nat.one_pos htarget).symm
    rw [get?_compactTargets htarget]
    by_cases hpositive : 0 < target <;> simp [hpositive, hused]

/-- An index that is not used has no target. -/
theorem get?_compactTargets_of_unused {position : Nat} (hposition : position < counts.length)
    (hunused : ¬Used counts position) :
    (Renumbering.mk (0 :: compactTargets 1 counts).toArray).get? (position + 1) = some 0 := by
  have htarget := List.getElem?_eq_getElem ((length_compactTargets 1 counts).symm ▸ hposition)
  rw [get?_compactTargets htarget]
  exact congrArg some (Nat.eq_zero_of_not_pos fun hpositive ↦
    hunused ((compactTargets_pos_iff Nat.one_pos htarget).mp hpositive))

end Counts

/-! ### The laws of compacting -/

/-- A compaction keeps the texts of the used indices in their order. Its table has a place for every
index of the source: in order, the used ones become the numbers from `1` on, and the others become
`0`. -/
structure Drops (source : Dictionary) (usage : List Nat) (result : Dictionary)
    (renumbering : Renumbering) : Prop where
  fewer : result.maxIndex < source.maxIndex
  texts_eq : result.texts.toList.map some = (source.usedIndices usage).map source.get?
  size_eq : renumbering.size = source.size
  zero : renumbering.get? 0 = some 0
  targets_eq : (source.usedIndices usage).map renumbering.get? =
    (List.range' 1 result.maxIndex).map some
  unused : ∀ index, 0 < index → index < source.size → ¬Used usage index →
    renumbering.get? index = some 0
  text : ∀ index, 0 < index → index < source.size → Used usage index →
    ∃ target, renumbering.get? index = some target ∧ 0 < target ∧ target < result.size ∧
      result.get? target = source.get? index

/-- What comes of compacting by the numbers of occurrences. -/
structure Compacts (current : Shared Dictionary) (usage : List Nat) (fresh : Token) : Prop where
  refused : usage.length ≠ current.value.size → compact current usage fresh =
    .error (.invalidArgument "usage" "usage.len() == self.size()")
  idle : usage.length = current.value.size → current.value.AllUsed usage →
    compact current usage fresh = .ok (current, .identity current.value.size)
  drops : usage.length = current.value.size → ¬current.value.AllUsed usage →
    (current.value.usedIndices usage).length < IndexFormat.int32.maxIndex →
      ∃ compacted renumbering,
        compact current usage fresh = .ok (⟨fresh, compacted⟩, renumbering) ∧
          current.value.Drops usage compacted renumbering
  /-- More texts than an index can tell apart do not make a dictionary. -/
  overfull : usage.length = current.value.size → ¬current.value.AllUsed usage →
    IndexFormat.int32.maxIndex ≤ (current.value.usedIndices usage).length →
      compact current usage fresh =
        .error (.invalidArgument "values" "values.len() < i32::MAX as usize")
  /-- So a dictionary whose indices all fit an index format is only refused for its usage. -/
  refused_iff : current.value.maxIndex ≤ IndexFormat.int32.maxIndex →
    ((∃ fault, compact current usage fresh = .error fault) ↔ usage.length ≠ current.value.size)
  recognised : ∀ result renumbering, compact current usage fresh = .ok (result, renumbering) →
    (renumbering.isIdentity ↔ current.value.AllUsed usage) ∧
      (fresh ≠ current.token → (result.same current ↔ current.value.AllUsed usage))
  /-- How often nothing occurs does not matter. -/
  sentinel : ∀ other, compact current (usage.set 0 other) fresh = compact current usage fresh
  again : ∀ result renumbering, compact current usage fresh = .ok (result, renumbering) →
    ∀ (recount : List Nat) (next : Token), recount.length = result.value.size →
      result.value.AllUsed recount →
        compact result recount next = .ok (result, .identity result.value.size)

variable {current : Shared Dictionary} {usage : List Nat} {fresh : Token}

theorem compact_of_length_ne (hlength : usage.length ≠ current.value.size) :
    compact current usage fresh =
      .error (.invalidArgument "usage" "usage.len() == self.size()") := by
  unfold compact Fault.require
  rw [if_neg (by simpa using hlength)]
  rfl

/-- Where not every text is used, one is not. -/
theorem exists_unused_index {source : Dictionary} (hunused : ¬source.AllUsed usage) :
    ∃ index, 0 < index ∧ index < source.size ∧ ¬Used usage index := by
  unfold AllUsed at hunused
  simp only [Classical.not_forall] at hunused
  obtain ⟨index, hpositive, hindex, hunused⟩ := hunused
  exact ⟨index, hpositive, hindex, hunused⟩

theorem exists_unused {missing : Nat} {counts : List Nat}
    (hcounts : counts.length = current.value.texts.toList.length)
    (hunused : ¬current.value.AllUsed (missing :: counts)) :
    ∃ position, position < counts.length ∧ ¬Used counts position := by
  obtain ⟨index, hpositive, hindex, hunused⟩ := exists_unused_index hunused
  obtain ⟨position, rfl⟩ := Nat.exists_eq_succ_of_ne_zero (Nat.ne_of_gt hpositive)
  exact ⟨position, hcounts ▸ Nat.lt_of_succ_lt_succ hindex, hunused⟩

/-- A list of counts that fits a dictionary is one for nothing and one for each text. -/
theorem exists_counts (hlength : usage.length = current.value.size) :
    ∃ missing counts, usage = missing :: counts ∧
      counts.length = current.value.texts.toList.length := by
  obtain ⟨missing, counts, rfl⟩ := List.exists_cons_of_length_eq_add_one hlength
  exact ⟨missing, counts, rfl, Nat.succ.inj hlength⟩

theorem length_usedIndices_lt (hlength : usage.length = current.value.size)
    (hunused : ¬current.value.AllUsed usage) :
    (current.value.usedIndices usage).length < current.value.maxIndex := by
  obtain ⟨missing, counts, rfl, hcounts⟩ := exists_counts hlength
  obtain ⟨position, hposition, hunused⟩ := exists_unused hcounts hunused
  rw [length_usedIndices hcounts]
  exact length_usedTexts_lt hcounts (hcounts ▸ hposition) hunused

theorem exists_drops (hlength : usage.length = current.value.size)
    (hunused : ¬current.value.AllUsed usage)
    (hroom : (current.value.usedIndices usage).length < IndexFormat.int32.maxIndex)
    (fresh : Token) :
    ∃ compacted renumbering, compact current usage fresh = .ok (⟨fresh, compacted⟩, renumbering) ∧
      current.value.Drops usage compacted renumbering := by
  have hlt := length_usedIndices_lt hlength hunused
  obtain ⟨missing, counts, rfl, hcounts⟩ := exists_counts hlength
  obtain ⟨position, hposition, hunused⟩ := exists_unused hcounts hunused
  rw [length_usedIndices hcounts] at hroom hlt
  obtain ⟨compacted, hcompacted, htexts⟩ :=
    exists_compact_of_unused missing hcounts hroom hposition hunused fresh
  have hmax := maxIndex_of_toList htexts
  have hsize : (compactTargets 1 counts).length = current.value.maxIndex :=
    (length_compactTargets 1 counts).trans hcounts
  have hcarries : Renumbering.Carries _ current.value compacted (Used (missing :: counts)) :=
    carries_compactTargets hcounts htexts
  refine ⟨compacted, _, hcompacted, ⟨hmax ▸ hlt, ?_, congrArg (· + 1) hsize, rfl, ?_, ?_, ?_⟩⟩
  · rw [htexts, map_get?_usedIndices missing hcounts]
  · rw [hmax, map_get?_compactTargets hcounts]
  · intro index hpositive hindex hunused
    obtain ⟨position, rfl⟩ := Nat.exists_eq_succ_of_ne_zero (Nat.ne_of_gt hpositive)
    exact get?_compactTargets_of_unused (hcounts ▸ Nat.lt_of_succ_lt_succ hindex) hunused
  · intro index hpositive hindex hused
    have htext := hcarries.text index (Nat.le_of_lt_succ hindex) hused
    obtain ⟨text, hsource⟩ := current.value.bijective.filled index hpositive hindex
    rw [hsource] at htext ⊢
    exact ⟨_, Renumbering.get?_of_lt (Nat.lt_of_lt_of_le hindex hcarries.covers),
      (compacted.bijective.indexOf?_eq_some_iff text _).mp (indexOf?_iff.mpr htext)⟩

theorem compact_of_overfull (hlength : usage.length = current.value.size)
    (hunused : ¬current.value.AllUsed usage)
    (hfull : IndexFormat.int32.maxIndex ≤ (current.value.usedIndices usage).length) :
    compact current usage fresh =
      .error (.invalidArgument "values" "values.len() < i32::MAX as usize") := by
  obtain ⟨missing, counts, rfl, hcounts⟩ := exists_counts hlength
  obtain ⟨position, hposition, hunused⟩ := exists_unused hcounts hunused
  rw [length_usedIndices hcounts] at hfull
  rw [compact_of_unused missing hcounts hposition hunused, ofList_of_full hfull]
  rfl

/-- A table with an index that it does not keep is not the identity. -/
theorem Drops.not_isIdentity {source result : Dictionary} {renumbering : Renumbering}
    (h : source.Drops usage result renumbering) (hunused : ¬source.AllUsed usage) :
    ¬renumbering.isIdentity := by
  obtain ⟨index, hpositive, hindex, hunused⟩ := exists_unused_index hunused
  have hzero := h.unused index hpositive hindex hunused
  intro hidentity
  have hmem : (0, index) ∈ renumbering.toList.zipIdx :=
    List.mk_mem_zipIdx_iff_getElem?.mpr (Array.getElem?_toList.trans hzero)
  have hkept := List.all_eq_true.mp hidentity _ hmem
  exact Nat.ne_of_lt hpositive (beq_iff_eq.mp hkept)

theorem isIdentity_identity (size : Nat) : (Renumbering.identity size).isIdentity := by
  unfold Renumbering.isIdentity Renumbering.toList Renumbering.identity
  rw [Array.toList_range]
  refine List.all_eq_true.mpr fun ⟨target, index⟩ hmem ↦ beq_iff_eq.mpr ?_
  have htarget := List.mk_mem_zipIdx_iff_getElem?.mp hmem
  rw [List.getElem?_eq_some_iff] at htarget
  obtain ⟨hindex, htarget⟩ := htarget
  rw [← htarget, List.getElem_range]

/-- Compacting tells whether there was anything to drop, by the object and by the table. -/
theorem recognised_of_compact {result : Shared Dictionary} {renumbering : Renumbering}
    (h : compact current usage fresh = .ok (result, renumbering)) :
    (renumbering.isIdentity ↔ current.value.AllUsed usage) ∧
      (fresh ≠ current.token → (result.same current ↔ current.value.AllUsed usage)) := by
  have hlength : usage.length = current.value.size := by
    by_contra hne
    rw [compact_of_length_ne hne] at h
    contradiction
  by_cases hused : current.value.AllUsed usage
  · rw [compact_of_used hlength hused] at h
    cases h
    exact ⟨iff_of_true (isIdentity_identity _) hused,
      fun _ ↦ iff_of_true (beq_self_eq_true current.token) hused⟩
  · by_cases hroom : (current.value.usedIndices usage).length < IndexFormat.int32.maxIndex
    · obtain ⟨compacted, table, hcompact, hdrops⟩ := exists_drops hlength hused hroom fresh
      rw [hcompact] at h
      cases h
      refine ⟨iff_of_false (hdrops.not_isIdentity hused) hused, fun hfresh ↦ ?_⟩
      exact iff_of_false (fun hsame ↦ hfresh (beq_iff_eq.mp hsame)) hused
    · rw [compact_of_overfull hlength hused (Nat.not_lt.mp hroom)] at h
      contradiction

/-- Only the length of a list of counts and what comes after the first are read. -/
theorem compact_set_zero (other : Nat) :
    compact current (usage.set 0 other) fresh = compact current usage fresh := by
  have htail : (usage.set 0 other).tail = usage.tail := by cases usage <;> rfl
  unfold compact
  rw [List.length_set, htail]

theorem refused_iff_of_le (hroom : current.value.maxIndex ≤ IndexFormat.int32.maxIndex) :
    (∃ fault, compact current usage fresh = .error fault) ↔
      usage.length ≠ current.value.size := by
  refine ⟨?_, fun hne ↦ ⟨_, compact_of_length_ne hne⟩⟩
  rintro ⟨fault, hfault⟩ hlength
  by_cases hused : current.value.AllUsed usage
  · rw [compact_of_used hlength hused] at hfault
    contradiction
  · have hlt := Nat.lt_of_lt_of_le (length_usedIndices_lt hlength hused) hroom
    obtain ⟨compacted, table, hcompact, -⟩ := exists_drops hlength hused hlt fresh
    rw [hcompact] at hfault
    contradiction

/-- When only the last text is dropped, all the others are left. -/
theorem le_length_usedIndices {source : Dictionary} {count : Nat}
    (hsize : source.maxIndex = count + 1) :
    count ≤ (source.usedIndices (List.replicate (count + 1) 1 ++ [0])).length := by
  have hused : ∀ index ∈ List.range' 1 count,
      Used (List.replicate (count + 1) 1 ++ [0]) index := by
    intro index hindex
    have hlt : index < count + 1 := Nat.add_comm 1 count ▸ (List.mem_range'_1.mp hindex).2
    refine ⟨1, ?_, Nat.one_pos⟩
    rw [List.getElem?_append_left (by simpa using hlt), List.getElem?_replicate_of_lt hlt]
  have hsublist : (List.range' 1 count).Sublist (List.range' 1 (count + 1)) :=
    List.range'_sublist_right.mpr (Nat.le_succ count)
  have hall : (List.range' 1 count).filter
      (Used (List.replicate (count + 1) 1 ++ [0]) ·) = List.range' 1 count :=
    List.filter_eq_self.mpr fun index hindex ↦ decide_eq_true (hused index hindex)
  calc count = (List.range' 1 count).length := List.length_range'.symm
    _ ≤ (source.usedIndices (List.replicate (count + 1) 1 ++ [0])).length := by
      unfold usedIndices
      rw [hsize, ← hall]
      exact (hsublist.filter _).length_le

/-- Dropping the last text of a dictionary with too many of them does not make one. -/
theorem compact_last_of_full {count : Nat} (hsize : current.value.maxIndex = count + 1)
    (hfull : IndexFormat.int32.maxIndex ≤ count) (fresh : Token) :
    compact current (List.replicate (count + 1) 1 ++ [0]) fresh =
      .error (.invalidArgument "values" "values.len() < i32::MAX as usize") := by
  have hlength : (List.replicate (count + 1) 1 ++ [0]).length = current.value.size := by
    rw [List.length_append, List.length_replicate]
    exact congrArg (· + 1) hsize.symm
  have hunused : ¬current.value.AllUsed (List.replicate (count + 1) 1 ++ [0]) := by
    intro hall
    obtain ⟨occurrences, hcount, hpositive⟩ :=
      hall (count + 1) (Nat.succ_pos count) (hsize ▸ Nat.lt_succ_self _)
    rw [List.getElem?_append_right (by simp)] at hcount
    simp at hcount
    omega
  exact compact_of_overfull hlength hunused (Nat.le_trans hfull (le_length_usedIndices hsize))

theorem compact_replicate {count : Nat} (hsize : current.value.size = count) (fresh : Token) :
    compact current (List.replicate count 1) fresh = .ok (current, .identity count) := by
  rw [← hsize]
  refine compact_of_used List.length_replicate (fun index _ hindex ↦ ?_) fresh
  exact ⟨1, List.getElem?_replicate_of_lt hindex, Nat.one_pos⟩

end Dictionary

end Columnar
