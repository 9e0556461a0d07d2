import Columnar.Proofs.Sparse.Reading

/-!
# Expanding sparse stores

Walking the positions of a sparse store once gives the same cells as looking every row up
(`toList_eq_map_read`). Every exception stands in a row of its own, so the rows are the exceptions
together with the default for all other rows, in some order (`toList_perm`); what occurs how often
can be counted without expanding.
-/

set_option autoImplicit false
set_option relaxedAutoImplicit false

namespace Columnar

section Rows

variable {C : Type} {default : C} {entries : List (Nat × C)} {row count : Nat}

/-- Among entries that come later, a row finds nothing. -/
theorem lookup_eq_none_of_lt (h : ∀ entry ∈ entries, row < entry.1) :
    entries.lookup row = none := by
  rw [List.lookup_eq_none_iff]
  intro entry hentry
  have hlt := h entry hentry
  simp only [bne_iff_ne, ne_eq]
  omega

/-- Spreading entries out looks every row up. -/
theorem spread_eq_map_lookup (hfrom : ∀ entry ∈ entries, row ≤ entry.1)
    (hsorted : entries.Pairwise fun first second ↦ first.1 < second.1) :
    spread default row count entries =
      (List.range' row count).map fun place ↦ (entries.lookup place).getD default := by
  induction count generalizing row entries with
  | zero => cases entries <;> rfl
  | succ count ih =>
    rw [List.range'_succ, List.map_cons]
    cases entries with
    | nil =>
      rw [spread, ih (List.forall_mem_nil _) .nil]
      rfl
    | cons entry rest =>
      obtain ⟨position, cell⟩ := entry
      obtain ⟨hfirst, hrest⟩ := List.pairwise_cons.mp hsorted
      by_cases hposition : position = row
      · subst hposition
        have hlater : ∀ entry ∈ rest, position + 1 ≤ entry.1 := hfirst
        rw [spread, if_pos rfl, ih hlater hrest]
        congr 1
        · simp
        · -- The entry of the first row is not the one of any later row.
          refine List.map_congr_left fun place hplace ↦ ?_
          have hne : (place == position) = false := by
            have hle := (List.mem_range'_1.mp hplace).1
            simp only [beq_eq_false_iff_ne, ne_eq]
            omega
          rw [List.lookup_cons, hne]
      · have hlater : ∀ entry ∈ (position, cell) :: rest, row + 1 ≤ entry.1 := by
          have hhead : row ≤ position := hfrom (position, cell) List.mem_cons_self
          have htail : ∀ entry ∈ rest, position < entry.1 := hfirst
          refine List.forall_mem_cons.mpr ⟨show row + 1 ≤ position by omega, fun entry hentry ↦ ?_⟩
          have hlt := htail entry hentry
          omega
        rw [spread, if_neg hposition, ih hlater hsorted, lookup_eq_none_of_lt hlater]
        rfl

/-- The entries and the default, which fills the other rows. -/
theorem spread_perm (default : C) (hfrom : ∀ entry ∈ entries, row ≤ entry.1 ∧ entry.1 < row + count)
    (hsorted : entries.Pairwise fun first second ↦ first.1 < second.1) :
    ∃ others, entries.length + others = count ∧
      (spread default row count entries).Perm
        (entries.map Prod.snd ++ List.replicate others default) := by
  induction count generalizing row entries with
  | zero =>
    cases entries with
    | nil => exact ⟨0, rfl, .nil⟩
    | cons entry rest =>
      have hentry := hfrom entry List.mem_cons_self
      omega
  | succ count ih =>
    cases entries with
    | nil =>
      obtain ⟨others, hothers, hperm⟩ := @ih [] (row + 1) (List.forall_mem_nil _) .nil
      exact ⟨others + 1, congrArg (· + 1) hothers, hperm.cons default⟩
    | cons entry rest =>
      obtain ⟨position, cell⟩ := entry
      obtain ⟨hfirst, hrest⟩ := List.pairwise_cons.mp hsorted
      have hhead : row ≤ position ∧ position < row + (count + 1) :=
        hfrom (position, cell) List.mem_cons_self
      have htail : ∀ entry ∈ rest, position < entry.1 ∧ entry.1 < row + (count + 1) :=
        fun entry hentry ↦ ⟨hfirst entry hentry, (hfrom entry (List.mem_cons_of_mem _ hentry)).2⟩
      by_cases hposition : position = row
      · obtain ⟨others, hothers, hperm⟩ := @ih rest (row + 1)
          (fun entry hentry ↦ by have hbounds := htail entry hentry; omega) hrest
        refine ⟨others, by rw [List.length_cons]; omega, ?_⟩
        rw [spread, if_pos hposition]
        exact hperm.cons cell
      · obtain ⟨others, hothers, hperm⟩ := @ih ((position, cell) :: rest) (row + 1)
          (List.forall_mem_cons.mpr ⟨show row + 1 ≤ position ∧ position < row + 1 + count by omega,
            fun entry hentry ↦ by have hbounds := htail entry hentry; omega⟩) hsorted
        refine ⟨others + 1, by omega, ?_⟩
        rw [spread, if_neg hposition, List.replicate_succ]
        exact (hperm.cons default).trans List.perm_middle.symm

/-- Spreading entries out makes no other cells. -/
theorem mem_spread {cell : C}
    (h : cell ∈ spread default row count entries) :
    cell = default ∨ ∃ entry ∈ entries, entry.2 = cell := by
  induction count generalizing row entries with
  | zero => cases entries <;> contradiction
  | succ count ih =>
    cases entries with
    | nil =>
      rcases List.mem_cons.mp h with rfl | h
      · exact .inl rfl
      · exact ih h
    | cons entry rest =>
      rw [spread] at h
      split at h
      · rcases List.mem_cons.mp h with rfl | h
        · exact .inr ⟨entry, List.mem_cons_self, rfl⟩
        · rcases ih h with hdefault | ⟨other, hother, heq⟩
          · exact .inl hdefault
          · exact .inr ⟨other, List.mem_cons_of_mem _ hother, heq⟩
      · rcases List.mem_cons.mp h with rfl | h
        · exact .inl rfl
        · exact ih h

end Rows

namespace SparseStore

variable {S C : Type} [Cell C] [Store S C] {sparse : SparseStore S C}

/-- Expanding reads the rows one by one. -/
theorem toList_eq_map_read (hformed : sparse.WellFormed) :
    sparse.toList = (List.range sparse.size).map sparse.read := by
  have hsorted := pairwise_entries hformed.increasing
  rw [toList, spread_eq_map_lookup (fun entry _ ↦ Nat.zero_le _) hsorted, List.range_eq_range']
  exact List.map_congr_left fun row _ ↦ (read_eq_lookup hformed.increasing row).symm

/-- The cells of an expanded sparse store are its default, its exceptions and missing. -/
theorem mem_toList [LawfulStore S] {cell : C} (h : cell ∈ sparse.toList) :
    cell = Cell.missing ∨ cell ∈ sparse.default :: Store.toList sparse.exceptions := by
  rcases mem_spread h with rfl | ⟨entry, hentry, rfl⟩
  · exact .inr List.mem_cons_self
  · obtain ⟨place, -, hread⟩ := mem_entries_iff.mp hentry
    rw [← hread]
    exact (Store.read_eq_missing_or_mem sparse.exceptions place).imp_right (List.mem_cons_of_mem _)

theorem length_entries : sparse.entries.length = sparse.exceptionCount := by
  simp [entries, exceptionCount]

/-- The rows hold every exception once, and the default in all rows that are left. -/
theorem toList_perm (hformed : sparse.WellFormed) :
    sparse.exceptionCount ≤ sparse.size ∧
      sparse.toList.Perm (Store.toList sparse.exceptions ++
        List.replicate (sparse.size - sparse.exceptionCount) sparse.default) := by
  have hbounds : ∀ entry ∈ sparse.entries, 0 ≤ entry.1 ∧ entry.1 < 0 + sparse.size := by
    intro entry hentry
    rw [Nat.zero_add]
    have hposition : entry.1 ∈ sparse.positions.toList := by
      rw [← map_fst_entries]
      exact List.mem_map_of_mem hentry
    exact ⟨Nat.zero_le _, hformed.below _ hposition⟩
  obtain ⟨others, hothers, hperm⟩ := spread_perm sparse.default hbounds
    (pairwise_entries hformed.increasing)
  rw [length_entries] at hothers
  rw [map_snd_entries hformed] at hperm
  have hrest : others = sparse.size - sparse.exceptionCount := by omega
  exact ⟨by omega, hrest ▸ hperm⟩

end SparseStore

end Columnar
