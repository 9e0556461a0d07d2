import Columnar.Ingest.ColumnBuilder
import Columnar.Proofs.Column.Alike
import Columnar.Proofs.Ingest.Finishing
import Columnar.Proofs.Sparse.Reading

/-!
# The layout of accumulated cells

What an accumulator hands over can always be stored (`exists_layoutOf`), and every row of the layout
reads a cell with the key of the one that was written there (`Keeps.key_read`), whether the layout
is dense or sparse.
-/

set_option autoImplicit false
set_option relaxedAutoImplicit false

namespace Columnar

variable {S C : Type} [Tracked C] [Store S C]

namespace Layout

/-- A layout of cells with these keys: dense, or sparse over this default and listing the deviations
from it. -/
inductive Keeps (cells : List C) (default? : Option C) : Layout S C → Prop
  | dense {store : S} (hkeys : (Store.toList store).map Tracked.key = cells.map Tracked.key)
    (hnone : default? = none) : Keeps cells default? (.dense store)
  | sparse {source : SparseStore S C} {kept : List C}
    (hkeys : kept.map Tracked.key = cells.map Tracked.key) (hformed : source.WellFormed)
    (hsize : source.size = cells.length)
    (hdefault : default?.map Tracked.key = some (Tracked.key source.default))
    (hentries : source.entries = deviations (Tracked.sameKey · source.default) kept) :
    Keeps cells default? (.sparse source)

variable {layout : Layout S C} {cells : List C} {default? : Option C}

theorem Keeps.size (h : layout.Keeps cells default?) : layout.size = cells.length := by
  cases h with
  | @dense store hkeys hnone =>
    have hlength : (Store.toList store).length = cells.length := by
      simpa using congrArg List.length hkeys
    exact (Store.length_toList store).symm.trans hlength
  | sparse _ _ hsize => exact hsize

/-- Every row reads a cell with the key of the one written there. -/
theorem Keeps.key_read (h : layout.Keeps cells default?) {row : Nat} {cell : C}
    (hcell : cells[row]? = some cell) : Tracked.key (layout.read row) = Tracked.key cell := by
  have hkept {kept : List C} (hkeys : kept.map Tracked.key = cells.map Tracked.key) :
      ∃ other, kept[row]? = some other ∧ Tracked.key other = Tracked.key cell := by
    have hrow := congrArg (fun keys ↦ keys[row]?) hkeys
    simp only [List.getElem?_map, hcell, Option.map_some] at hrow
    exact Option.map_eq_some_iff.mp hrow
  cases h with
  | @dense store hkeys =>
    obtain ⟨other, hother, hkey⟩ := hkept hkeys
    rw [← hkey, ← Store.read_of_getElem?_toList hother]
    rfl
  | @sparse source kept hkeys hformed _ _ hentries =>
    obtain ⟨other, hother, hkey⟩ := hkept hkeys
    have hlookup := @lookup_pickedFrom _ _
      (fun cell ↦ if Tracked.sameKey cell source.default then none else some cell) kept 0 row
    rw [Nat.zero_add, hother, Option.bind_some, ← deviations_eq_pickedFrom, ← hentries] at hlookup
    rw [← hkey]
    show Tracked.key (source.read row) = _
    rw [SparseStore.read_eq_lookup hformed.increasing, hlookup]
    split
    · next hsame => exact (Tracked.sameKey_iff.mp hsame).symm
    · rfl

/-- Every stored cell has the key of a cell that was written, or of the default. -/
theorem Keeps.key_stored (h : layout.Keeps cells default?) {cell : C}
    (hcell : cell ∈ Column.storedCells layout) :
    Tracked.key cell ∈ cells.map Tracked.key ∨
      default?.map Tracked.key = some (Tracked.key cell) := by
  cases h with
  | @dense store hkeys =>
    left
    rw [← hkeys]
    exact List.mem_map_of_mem hcell
  | @sparse source kept hkeys hformed _ hdefault hentries =>
    rcases List.mem_cons.mp hcell with rfl | hexception
    · exact .inr hdefault
    · left
      obtain ⟨place, hplace, rfl⟩ := Store.mem_toList_iff.mp hexception
      rw [hformed.exceptions] at hplace
      have hentry := SparseStore.mem_entries_iff.mpr
        ⟨place, Array.getElem?_eq_getElem hplace, rfl⟩
      rw [hentries, deviations_eq_pickedFrom] at hentry
      obtain ⟨-, -, item, hitem, hpick⟩ := of_mem_pickedFrom hentry
      simp only [Option.ite_none_left_eq_some, Option.some.injEq] at hpick
      rw [← hkeys, ← hpick.2]
      exact List.mem_map_of_mem hitem

/-- The keys of deviations from a default, with their rows. -/
theorem map_key_deviations (default : C) (cells : List C) :
    (deviations (Tracked.sameKey · default) cells).map (fun (row, cell) ↦ (row, Tracked.key cell)) =
      pickedFrom (fun key ↦ if key = Tracked.key default then none else some key) 0
        (cells.map Tracked.key) := by
  rw [deviations_eq_pickedFrom, map_pickedFrom, pickedFrom_map]
  congr 1
  funext cell
  by_cases hsame : Tracked.sameKey cell default
  · rw [if_pos hsame, if_pos (Tracked.sameKey_iff.mp hsame), Option.map_none]
  · rw [if_neg hsame, if_neg (fun hkey ↦ hsame (Tracked.sameKey_iff.mpr hkey)), Option.map_some]

/-- Two layouts of the same cells over the same default are alike. -/
theorem Keeps.alike {other : Layout S C} (h : layout.Keeps cells default?)
    (hother : other.Keeps cells default?) : layout.Alike Tracked.key other := by
  cases h with
  | dense hkeys hnone =>
    cases hother with
    | dense hkeys' => exact .dense (hkeys.trans hkeys'.symm)
    | sparse _ _ _ hdefault => simp [hnone] at hdefault
  | @sparse source kept hkeys hformed hsize hdefault hentries =>
    cases hother with
    | dense _ hnone => simp [hnone] at hdefault
    | @sparse source' kept' hkeys' hformed' hsize' hdefault' hentries' =>
      have hkey : Tracked.key source.default = Tracked.key source'.default :=
        Option.some.inj (hdefault.symm.trans hdefault')
      have hlisted : source.entries.map (fun (row, cell) ↦ (row, Tracked.key cell)) =
          source'.entries.map fun (row, cell) ↦ (row, Tracked.key cell) := by
        rw [hentries, hentries', map_key_deviations, map_key_deviations, hkeys, hkeys', hkey]
      refine .sparse hkey (hsize.trans hsize'.symm) ?_ ?_
      · have hrows := congrArg (List.map Prod.fst) hlisted
        simp only [List.map_map] at hrows
        apply Array.toList_inj.mp
        rw [← SparseStore.map_fst_entries, ← SparseStore.map_fst_entries]
        exact hrows
      · have hcells := congrArg (List.map Prod.snd) hlisted
        simp only [List.map_map] at hcells
        rw [← SparseStore.map_snd_entries hformed, ← SparseStore.map_snd_entries hformed',
          List.map_map, List.map_map]
        exact hcells

end Layout

namespace ColumnBuilder

variable {cells : List C} {default? : Option C} {accumulated : Accumulated C}

/-- Cells that can be stored: any cells with the same keys make a dense store, the prototype takes
each of them, and either way the store is of the wanted kind. -/
structure Storable (prototype : S) (dense : Tracked.Buffer C → Outcome S) (kind : S → Prop)
    (cells : List C) : Prop where
  exists_dense : ∀ kept : List C, kept.map Tracked.key = cells.map Tracked.key →
    ∃ store, dense (Tracked.appendAll Tracked.emptyBuffer kept) = .ok store ∧
      Store.toList store = kept ∧ kind store
  takes : ∀ cell : C, Tracked.key cell ∈ cells.map Tracked.key → Store.Takes prototype cell
  of_pack : ∀ {size : Nat} {kept : List C} {packed : S},
    Store.pack prototype size kept = .ok packed → kind packed

variable {prototype : S} {dense : Tracked.Buffer C → Outcome S} {kind : S → Prop}

/-- What was accumulated of such cells makes a layout. -/
theorem exists_layoutOf [LawfulStore S] (h : accumulated.Holds cells default?)
    (hsize : cells.length ≤ rowLimit) (hstorable : Storable prototype dense kind cells) :
    ∃ layout, layoutOf prototype dense accumulated = .ok layout ∧
      layout.Keeps cells default? ∧ kind layout.prototype := by
  cases h with
  | @dense kept hkeys hnone =>
    obtain ⟨store, hstore, hlist, hkind⟩ := hstorable.exists_dense kept hkeys
    refine ⟨.dense store, ?_, .dense ?_ hnone, hkind⟩
    · simp only [layoutOf, hstore]
      rfl
    · rw [hlist, hkeys]
  | @sparse kept default hkeys hdefault =>
    have hlength : kept.length = cells.length := by simpa using congrArg List.length hkeys
    have hbound : kept.length ≤ 4294967295 := hlength ▸ Nat.le_trans hsize (by decide)
    have hkept := deviations_eq_pickedFrom (Tracked.sameKey · default) kept
    obtain ⟨packed, hcollect, hpacked, hformed, hentries⟩ := SparseStore.exists_ofPicked prototype
      default hkept hbound fun entry hentry ↦ by
        rw [hkept] at hentry
        obtain ⟨-, -, item, hitem, hpick⟩ := of_mem_pickedFrom hentry
        simp only [Option.ite_none_left_eq_some, Option.some.injEq] at hpick
        rw [← hpick.2]
        exact hstorable.takes item (hkeys ▸ List.mem_map_of_mem hitem)
    rw [hlength] at hformed hentries
    refine ⟨_, ?_, .sparse hkeys hformed rfl hdefault hentries, hstorable.of_pack hpacked⟩
    unfold layoutOf
    simp only [hcollect, Outcome.ok_bind]
    rw [SparseStore.ofExceptions_eq_ok_iff.mpr ⟨rfl, hformed⟩]
    rfl

/-- So finishing an accumulator of such cells makes a layout over the default that the cells
determine. -/
theorem exists_layout [LawfulTracked C] [LawfulStore S] {accumulator : Accumulator C}
    {options : IngestOptions} (h : accumulator.Holds options cells)
    (haccepts : ∀ cell ∈ cells, Tracked.Accepts cell) (hsize : cells.length ≤ rowLimit)
    (hstorable : Storable prototype dense kind cells) (final : FinalLayout) (valueBytes : Float) :
    ∃ accumulated layout, accumulator.finish final valueBytes = .ok accumulated ∧
      layoutOf prototype dense accumulated = .ok layout ∧
      layout.Keeps cells (chosenDefault? cells options.minSparsity final valueBytes) ∧
      kind layout.prototype := by
  obtain ⟨accumulated, hfinish, hholds⟩ :=
    Accumulator.exists_finish h haccepts hsize final valueBytes
  obtain ⟨layout, hlayout, hkeeps, hkind⟩ := exists_layoutOf hholds hsize hstorable
  exact ⟨accumulated, layout, hfinish, hlayout, hkeeps, hkind⟩

end ColumnBuilder

end Columnar
