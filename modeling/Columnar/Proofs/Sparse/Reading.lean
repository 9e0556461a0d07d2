import Columnar.Proofs.Sparse.Encoding
import Columnar.Proofs.Store.Lawful

/-!
# Reading sparse stores

A sparse store is well formed when its positions increase strictly, stay below its size and are as
many as its exceptions. That is what `SparseStore.ofExceptions` accepts
(`ofExceptions_eq_ok_iff`). In a well-formed store the binary search finds every position
(`exception?_eq_some_iff`), so a row reads the exception listed for it, or else the default
(`read_eq_lookup`).
-/

set_option autoImplicit false
set_option relaxedAutoImplicit false

namespace Columnar

/-! ### Binary search -/

/-- All places before `low` lie below the target, and none from `high` on does. -/
structure Brackets (positions : Array Nat) (target low high : Nat) : Prop where
  low_le : low ≤ high
  high_le : high ≤ positions.size
  below : ∀ place (h : place < positions.size), place < low → positions[place] < target
  above : ∀ place (h : place < positions.size), high ≤ place → target ≤ positions[place]

theorem getElem_lt_getElem_of_pairwise {positions : Array Nat}
    (hsorted : positions.toList.Pairwise (· < ·)) {first second : Nat}
    (hfirst : first < positions.size) (hsecond : second < positions.size) (hlt : first < second) :
    positions[first] < positions[second] := by
  have h := List.pairwise_iff_getElem.mp hsorted first second (by simpa using hfirst)
    (by simpa using hsecond) hlt
  simpa using h

/-- Looking at the middle narrows the range from one side. -/
theorem Brackets.narrow {positions : Array Nat} {target low high : Nat}
    (hsorted : positions.toList.Pairwise (· < ·)) (h : Brackets positions target low high)
    (hlt : low < high) :
    if positions[low + (high - low) / 2]?.getD 0 < target then
      Brackets positions target (low + (high - low) / 2 + 1) high
    else Brackets positions target low (low + (high - low) / 2) := by
  have hhigh := h.high_le
  have hmiddle : low + (high - low) / 2 < positions.size := by omega
  rw [Array.getElem?_eq_getElem hmiddle, Option.getD_some]
  split
  · next hbelow =>
    refine ⟨by omega, hhigh, ?_, h.above⟩
    intro place hplace hle
    rcases Nat.lt_or_eq_of_le (Nat.le_of_lt_succ hle) with hless | rfl
    · exact Nat.lt_trans (getElem_lt_getElem_of_pairwise hsorted hplace hmiddle hless) hbelow
    · exact hbelow
  · next habove =>
    refine ⟨by omega, by omega, h.below, fun place hplace hle ↦ ?_⟩
    rcases Nat.lt_or_eq_of_le hle with hless | rfl
    · have hstep := getElem_lt_getElem_of_pairwise hsorted hmiddle hplace hless
      omega
    · exact Nat.not_lt.mp habove

/-- Every step halves the range, so the fuel lasts. -/
theorem brackets_lowerBoundFrom {positions : Array Nat} {target fuel low high : Nat}
    (hsorted : positions.toList.Pairwise (· < ·)) (h : Brackets positions target low high)
    (hfuel : high - low < Nat.pow 2 fuel) :
    Brackets positions target (lowerBoundFrom positions target fuel low high)
      (lowerBoundFrom positions target fuel low high) := by
  induction fuel generalizing low high with
  | zero =>
    have hle := h.low_le
    have heq : high = low := by
      simp only [Nat.pow_eq, Nat.pow_zero] at hfuel
      omega
    subst heq
    exact h
  | succ fuel ih =>
    rw [Nat.pow_eq, Nat.pow_succ] at hfuel
    unfold lowerBoundFrom
    by_cases hlt : low < high
    · have hnarrow := h.narrow hsorted hlt
      simp only [if_pos hlt]
      split
      · next hbelow =>
        rw [if_pos hbelow] at hnarrow
        exact ih hnarrow (by rw [Nat.pow_eq]; omega)
      · next habove =>
        rw [if_neg habove] at hnarrow
        exact ih hnarrow (by rw [Nat.pow_eq]; omega)
    · have hle := h.low_le
      have heq : high = low := by omega
      subst heq
      simpa using h

theorem brackets_lowerBound {positions : Array Nat} (hsorted : positions.toList.Pairwise (· < ·))
    (target : Nat) :
    Brackets positions target (lowerBound positions target) (lowerBound positions target) := by
  have hinit : Brackets positions target 0 positions.size :=
    ⟨Nat.zero_le _, Nat.le_refl _, fun _ _ h ↦ absurd h (Nat.not_lt_zero _),
      fun _ hplace hle ↦ absurd hplace (Nat.not_lt_of_le hle)⟩
  apply brackets_lowerBoundFrom hsorted hinit
  rw [Nat.sub_zero, Nat.pow_eq]
  exact Nat.lt_log2_self

/-! ### Well-formed sparse stores -/

section Rows

variable {C : Type}

/-- Among increasing rows, the first entry of a row is its only one. -/
theorem lookup_eq_some_iff_mem {entries : List (Nat × C)}
    (hsorted : entries.Pairwise fun first second ↦ first.1 < second.1) {row : Nat} {cell : C} :
    entries.lookup row = some cell ↔ (row, cell) ∈ entries := by
  induction entries with
  | nil => simp
  | cons entry rest ih =>
    obtain ⟨position, other⟩ := entry
    rw [List.pairwise_cons] at hsorted
    rw [List.lookup_cons, List.mem_cons]
    by_cases hrow : row = position
    · subst hrow
      have habsent : (row, cell) ∉ rest := fun hmem ↦
        Nat.lt_irrefl row (hsorted.1 (row, cell) hmem)
      simp [habsent, eq_comm]
    · have hbeq : (row == position) = false := by simpa using hrow
      simp [hbeq, hrow, ih hsorted.2]

theorem increasing_iff_pairwise {positions : List Nat} :
    SparseStore.increasing positions ↔ positions.Pairwise (· < ·) := by
  induction positions with
  | nil => simp [SparseStore.increasing]
  | cons first rest ih =>
    cases rest with
    | nil => simp [SparseStore.increasing]
    | cons second rest =>
      rw [SparseStore.increasing, Bool.and_eq_true, decide_eq_true_iff, ih]
      constructor
      · rintro ⟨hlt, hrest⟩
        refine List.pairwise_cons.mpr ⟨?_, hrest⟩
        intro position hposition
        rcases List.mem_cons.mp hposition with rfl | hmem
        · exact hlt
        · exact Nat.lt_trans hlt ((List.pairwise_cons.mp hrest).1 position hmem)
      · intro h
        obtain ⟨hfirst, hrest⟩ := List.pairwise_cons.mp h
        exact ⟨hfirst second List.mem_cons_self, hrest⟩

end Rows

namespace SparseStore

variable {S C : Type} [Cell C] [Store S C] {sparse : SparseStore S C}

structure WellFormed (sparse : SparseStore S C) : Prop where
  increasing : sparse.positions.toList.Pairwise (· < ·)
  below : ∀ position ∈ sparse.positions.toList, position < sparse.size
  exceptions : Store.size sparse.exceptions = sparse.positions.size
  bounded : sparse.size ≤ 4294967295

/-- The last of increasing positions bounds them all. -/
theorem below_iff_getLast? {positions : List Nat} (hsorted : positions.Pairwise (· < ·))
    {size : Nat} :
    (∀ last, positions.getLast? = some last → last < size) ↔
      ∀ position ∈ positions, position < size := by
  constructor
  · intro h position hposition
    have hne : positions ≠ [] := List.ne_nil_of_mem hposition
    have hlast := h _ (List.getLast?_eq_some_getLast hne)
    obtain ⟨front, hfront⟩ : ∃ front, positions = front ++ [positions.getLast hne] :=
      ⟨positions.dropLast, (List.dropLast_concat_getLast hne).symm⟩
    rw [hfront] at hposition hsorted
    rcases List.mem_append.mp hposition with hmem | hmem
    · have hlt := (List.pairwise_append.mp hsorted).2.2 position hmem _ List.mem_cons_self
      exact Nat.lt_trans hlt hlast
    · rw [List.mem_singleton.mp hmem]
      exact hlast
  · intro h last hlast
    exact h last (List.mem_of_getLast? hlast)

theorem ofExceptions_eq_ok_iff {default : C} {size : Nat} {positions : List Nat} {exceptions : S} :
    ofExceptions default size positions exceptions = .ok sparse ↔
      sparse = ⟨default, size, positions.toArray, exceptions⟩ ∧ sparse.WellFormed := by
  have hresult : ofExceptions default size positions exceptions = .ok sparse ↔
      size ≤ 4294967295 ∧ Store.size exceptions = positions.length ∧
        increasing positions ∧ (∀ last, positions.getLast? = some last → last < size) ∧
          sparse = ⟨default, size, positions.toArray, exceptions⟩ := by
    unfold ofExceptions Fault.require
    by_cases hsize : size ≤ 4294967295
    · by_cases hcount : Store.size exceptions = positions.length
      · by_cases hincreasing : increasing positions
        · cases hlast : positions.getLast? with
          | none =>
            simp [hsize, hcount, hincreasing, bind, Except.bind, pure, Except.pure, eq_comm]
          | some last =>
            by_cases hbelow : size ≤ last
            · have hlt : ¬last < size := Nat.not_lt.mpr hbelow
              simp [hsize, hcount, hincreasing, hbelow, hlt, bind, Except.bind, throw, throwThe,
                MonadExceptOf.throw]
            · have hlt : last < size := Nat.not_le.mp hbelow
              simp [hsize, hcount, hincreasing, hbelow, hlt, bind, Except.bind, pure, Except.pure,
                eq_comm]
        · simp [hsize, hcount, hincreasing, bind, Except.bind]
      · simp [hsize, hcount, bind, Except.bind]
    · simp [hsize, bind, Except.bind]
  rw [hresult]
  constructor
  · rintro ⟨hsize, hcount, hincreasing, hlast, rfl⟩
    have hsorted := increasing_iff_pairwise.mp hincreasing
    exact ⟨rfl, hsorted, (below_iff_getLast? hsorted).mp hlast, by simpa using hcount, hsize⟩
  · rintro ⟨rfl, hsorted, hbelow, hcount, hsize⟩
    exact ⟨hsize, by simpa using hcount, increasing_iff_pairwise.mpr hsorted,
      (below_iff_getLast? hsorted).mpr hbelow, rfl⟩

omit [Cell C] [Store S C] in
/-- The search finds a row exactly where it is listed. -/
theorem exception?_eq_some_iff (hsorted : sparse.positions.toList.Pairwise (· < ·))
    {row place : Nat} :
    sparse.exception? row = some place ↔ sparse.positions[place]? = some row := by
  have hbrackets := brackets_lowerBound hsorted row
  unfold exception?
  constructor
  · intro h
    dsimp only at h
    split at h
    · next hfound =>
      cases h
      exact hfound
    · contradiction
  · intro h
    obtain ⟨hplace, hrow⟩ := Array.getElem?_eq_some_iff.mp h
    have heq : lowerBound sparse.positions row = place := by
      rcases Nat.lt_trichotomy place (lowerBound sparse.positions row) with hlt | heq | hgt
      · have hbelow := hbrackets.below place hplace hlt
        omega
      · exact heq.symm
      · have hbound : lowerBound sparse.positions row < sparse.positions.size :=
          Nat.lt_trans hgt hplace
        have habove := hbrackets.above _ hbound (Nat.le_refl _)
        have hless := getElem_lt_getElem_of_pairwise hsorted hbound hplace hgt
        omega
    simp only [heq, h, if_pos]

theorem mem_entries_iff {row : Nat} {cell : C} :
    (row, cell) ∈ sparse.entries ↔
      ∃ place, sparse.positions[place]? = some row ∧ Store.read sparse.exceptions place = cell := by
  unfold entries
  simp only [List.mem_map, Prod.mk.injEq, Prod.exists, List.mem_zipIdx_iff_getElem?,
    Array.getElem?_toList]
  constructor
  · rintro ⟨position, place, hplace, rfl, hcell⟩
    exact ⟨place, hplace, hcell⟩
  · rintro ⟨place, hplace, hcell⟩
    exact ⟨row, place, hplace, rfl, hcell⟩

theorem map_fst_entries : sparse.entries.map Prod.fst = sparse.positions.toList := by
  unfold entries
  rw [List.map_map]
  exact List.zipIdx_map_fst 0 _

/-- The cells of the entries are the exceptions. -/
theorem map_snd_entries (h : sparse.WellFormed) :
    sparse.entries.map Prod.snd = Store.toList sparse.exceptions := by
  unfold entries Store.toList
  rw [List.map_map, h.exceptions, List.range_eq_range', ← Array.length_toList,
    ← List.zipIdx_map_snd 0, List.map_map]
  rfl

theorem pairwise_entries (hsorted : sparse.positions.toList.Pairwise (· < ·)) :
    sparse.entries.Pairwise fun first second ↦ first.1 < second.1 := by
  rw [← map_fst_entries, List.pairwise_map] at hsorted
  exact hsorted

/-- A row reads the exception listed for it, or else the default. -/
theorem read_eq_lookup (hsorted : sparse.positions.toList.Pairwise (· < ·)) (row : Nat) :
    sparse.read row = (sparse.entries.lookup row).getD sparse.default := by
  unfold read
  cases hplace : sparse.exception? row with
  | some place =>
    have hmem := mem_entries_iff.mpr ⟨place, (exception?_eq_some_iff hsorted).mp hplace, rfl⟩
    rw [(lookup_eq_some_iff_mem (pairwise_entries hsorted)).mpr hmem]
    rfl
  | none =>
    have hnone : sparse.entries.lookup row = none := by
      rw [Option.eq_none_iff_forall_ne_some]
      intro cell hcell
      obtain ⟨place, hrow, -⟩ := mem_entries_iff.mp
        ((lookup_eq_some_iff_mem (pairwise_entries hsorted)).mp hcell)
      rw [(exception?_eq_some_iff hsorted).mpr hrow] at hplace
      contradiction
    rw [hnone]
    rfl

/-- A row that has no position reads the default. -/
theorem read_eq_default {row : Nat} (h : row ∉ sparse.positions.toList) :
    sparse.read row = sparse.default := by
  unfold read exception?
  rw [if_neg fun hplace ↦ h (List.mem_of_getElem? (Array.getElem?_toList ▸ hplace))]

/-- A store packed from picked cells lists just these. -/
theorem entries_of_pack [LawfulStore S] {prototype packed : S} {default : C} {size : Nat}
    {kept : List (Nat × C)}
    (hpack : Store.pack prototype kept.length (kept.map Prod.snd) = .ok packed) :
    entries ⟨default, size, (kept.map Prod.fst).toArray, packed⟩ = kept := by
  unfold entries
  refine List.ext_getElem? ?_
  intro place
  simp only [List.getElem?_map, List.getElem?_zipIdx, Nat.zero_add]
  cases hentry : kept[place]? with
  | none => rfl
  | some entry =>
    have hread : Store.read packed place = entry.2 := by
      rw [LawfulStore.read_pack hpack, Cell.fit, List.length_map, Nat.sub_self,
        List.replicate_zero, List.append_nil, List.take_of_length_le (by simp), List.getElem?_map,
        hentry]
      rfl
    simp [hread]

/-- Picked cells that the store takes make a well-formed sparse store that lists just them. -/
theorem exists_ofPicked [LawfulStore S] {α : Type} {pick : α → Option C} (prototype : S)
    (default : C) {items : List α} {kept : List (Nat × C)} (hkept : kept = pickedFrom pick 0 items)
    (hsize : items.length ≤ 4294967295) (htakes : ∀ entry ∈ kept, Store.Takes prototype entry.2) :
    ∃ packed, Store.collect prototype kept.length (kept.map Prod.snd) = .ok packed ∧
      Store.pack prototype kept.length (kept.map Prod.snd) = .ok packed ∧
      WellFormed ⟨default, items.length, (kept.map Prod.fst).toArray, packed⟩ ∧
      entries ⟨default, items.length, (kept.map Prod.fst).toArray, packed⟩ = kept := by
  have hcount : kept.length ≤ items.length := by
    rw [hkept]
    exact length_pickedFrom_le _ _
  obtain ⟨packed, hcollect, hpack⟩ := Store.exists_collect prototype (Nat.le_trans hcount hsize)
    fun cell hcell ↦ by
      obtain ⟨entry, hentry, rfl⟩ := List.mem_map.mp hcell
      exact htakes entry hentry
  refine ⟨packed, hcollect, hpack, ⟨?_, ?_, ?_, hsize⟩, entries_of_pack hpack⟩
  · rw [List.toList_toArray, List.pairwise_map, hkept]
    exact pairwise_pickedFrom _ _
  · intro position hposition
    rw [List.toList_toArray] at hposition
    obtain ⟨entry, hentry, rfl⟩ := List.mem_map.mp hposition
    rw [hkept] at hentry
    have hlt := (of_mem_pickedFrom hentry).2.1
    rwa [Nat.zero_add] at hlt
  · simpa using LawfulStore.size_pack hpack

end SparseStore

end Columnar
