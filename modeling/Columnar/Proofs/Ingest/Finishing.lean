import Columnar.Proofs.Ingest.Accumulating

/-!
# Finishing an accumulator

What an accumulator hands over depends on its cells only: on their keys, the demanded layout, the
cost of a cell and the least sparsity that is wanted, but not on the storage it used meanwhile. The
default of a sparse result is `chosenDefault?` of the cells, and the exceptions are the deviations
from it (`exists_finish`).
-/

set_option autoImplicit false
set_option relaxedAutoImplicit false

namespace Columnar

variable {C : Type} [Tracked C]

/-- The default of a sparse result for these cells, or nothing for a dense one. -/
def chosenDefault? (cells : List C) (minSparsity : Float) (final : FinalLayout)
    (valueBytes : Float) : Option C :=
  match final with
  | .dense => none
  | .sparse => some ((dominant? cells).elim Cell.missing Prod.fst)
  | .auto =>
    match dominant? cells with
    | some (default, count) =>
      let density : Density := ⟨cells.length, count⟩
      if density.sparsePaysOff valueBytes minSparsity then some default else none
    | none => none

/-- The dominant cells of two sequences with the same keys. -/
theorem dominant?_cases {first second : List C}
    (hkeys : first.map Tracked.key = second.map Tracked.key) :
    (dominant? first = none ∧ dominant? second = none) ∨
      ∃ cell other count, dominant? first = some (cell, count) ∧
        dominant? second = some (other, count) ∧ Tracked.key cell = Tracked.key other := by
  have hcongr := dominant?_congr hkeys
  cases hfirst : dominant? first with
  | none =>
    rw [hfirst, Option.map_none] at hcongr
    exact .inl ⟨rfl, Option.map_eq_none_iff.mp hcongr.symm⟩
  | some best =>
    obtain ⟨cell, count⟩ := best
    rw [hfirst, Option.map_some] at hcongr
    obtain ⟨⟨other, count'⟩, hsecond, heq⟩ := Option.map_eq_some_iff.mp hcongr.symm
    obtain ⟨hkey, rfl⟩ := Prod.mk.inj heq
    exact .inr ⟨cell, other, count', rfl, hsecond, hkey.symm⟩

/-- Only keys count for the default. -/
theorem chosenDefault?_congr {first second : List C}
    (hkeys : first.map Tracked.key = second.map Tracked.key) (minSparsity : Float)
    (final : FinalLayout) (valueBytes : Float) :
    (chosenDefault? first minSparsity final valueBytes).map Tracked.key =
      (chosenDefault? second minSparsity final valueBytes).map Tracked.key := by
  have hlength : first.length = second.length := by
    simpa using congrArg List.length hkeys
  unfold chosenDefault?
  cases final with
  | dense => rfl
  | sparse =>
    rcases dominant?_cases hkeys with
      ⟨hfirst, hsecond⟩ | ⟨cell, other, count, hfirst, hsecond, hkey⟩
    · rw [hfirst, hsecond]
    · simp only [hfirst, hsecond, Option.elim_some, Option.map_some, hkey]
  | auto =>
    rcases dominant?_cases hkeys with
      ⟨hfirst, hsecond⟩ | ⟨cell, other, count, hfirst, hsecond, hkey⟩
    · simp only [hfirst, hsecond]
    · simp only [hfirst, hsecond, hlength]
      split
      · simp only [Option.map_some, hkey]
      · rfl

/-- The default is one of the cells, and missing only when there are none. -/
theorem chosenDefault?_mem {cells : List C} {minSparsity valueBytes : Float} {final : FinalLayout}
    {default : C} (h : chosenDefault? cells minSparsity final valueBytes = some default) :
    FirstMaximum (occurrences cells) cells default ∨ (cells = [] ∧ default = Cell.missing) := by
  unfold chosenDefault? at h
  cases hdominant : dominant? cells with
  | none =>
    have hempty := dominant?_eq_none hdominant
    rw [hdominant] at h
    cases final with
    | dense => contradiction
    | sparse => exact .inr ⟨hempty, (Option.some.inj h).symm⟩
    | auto => contradiction
  | some best =>
    obtain ⟨cell, count⟩ := best
    have hmaximum := (dominant?_eq_some hdominant).2
    rw [hdominant] at h
    cases final with
    | dense => contradiction
    | sparse =>
      cases h
      exact .inl hmaximum
    | auto =>
      simp only [Option.ite_none_right_eq_some, Option.some.injEq] at h
      rw [← h.2]
      exact .inl hmaximum

namespace Accumulated

/-- What is handed over for these cells: cells of the same keys, densely, or their deviations from a
default of the same key. -/
inductive Holds (cells : List C) (default? : Option C) : Accumulated C → Prop
  | dense {kept : List C} (hkeys : kept.map Tracked.key = cells.map Tracked.key)
    (hnone : default? = none) :
    Holds cells default? (.dense (Tracked.appendAll Tracked.emptyBuffer kept))
  | sparse {kept : List C} {default : C} (hkeys : kept.map Tracked.key = cells.map Tracked.key)
    (hdefault : default?.map Tracked.key = some (Tracked.key default)) :
    Holds cells default?
      (.sparse default cells.length (deviations (Tracked.sameKey · default) kept))

end Accumulated

namespace Accumulator

variable {accumulator : Accumulator C} {options : IngestOptions} {cells : List C}
  [LawfulTracked C]

theorem map_key_finalDefault? (h : accumulator.Holds options cells)
    (haccepts : ∀ cell ∈ cells, Tracked.Accepts cell) (final : FinalLayout) (valueBytes : Float) :
    (accumulator.finalDefault? final valueBytes).map Tracked.key =
      (chosenDefault? cells options.minSparsity final valueBytes).map Tracked.key := by
  have hkeys := map_key_toList h fun _ ↦ haccepts
  have hsize : accumulator.size = accumulator.toList.length := by
    rw [h.size_eq]
    simpa using (congrArg List.length hkeys).symm
  rw [← chosenDefault?_congr hkeys]
  unfold finalDefault? chosenDefault?
  cases final with
  | dense => rfl
  | sparse => rfl
  | auto =>
    cases dominant? accumulator.toList with
    | none => rfl
    | some best => simp only [hsize, h.options_eq]

/-- Finishing hands over what the cells alone determine. -/
theorem exists_finish (h : accumulator.Holds options cells)
    (haccepts : ∀ cell ∈ cells, Tracked.Accepts cell) (hsize : cells.length ≤ rowLimit)
    (final : FinalLayout) (valueBytes : Float) :
    ∃ accumulated, accumulator.finish final valueBytes = .ok accumulated ∧
      accumulated.Holds cells (chosenDefault? cells options.minSparsity final valueBytes) := by
  have hdefault := map_key_finalDefault? h haccepts final valueBytes
  obtain ⟨chosen?, hchosen⟩ : ∃ chosen?,
      chosenDefault? cells options.minSparsity final valueBytes = chosen? := ⟨_, rfl⟩
  obtain ⟨storage, hstorage⟩ : ∃ storage, accumulator.storage = storage := ⟨_, rfl⟩
  have hkeeps := h.keeps
  rw [hchosen] at hdefault ⊢
  rw [hstorage] at hkeeps
  unfold finish
  rw [hstorage, h.size_eq]
  cases hfinal : accumulator.finalDefault? final valueBytes with
  | none =>
    have hnone : chosen? = none := by
      rw [hfinal, Option.map_none] at hdefault
      exact Option.map_eq_none_iff.mp hdefault.symm
    cases hkeeps with
    | dense => exact ⟨_, rfl, .dense rfl hnone⟩
    | reverted hkeys => exact ⟨_, rfl, .dense hkeys hnone⟩
    | @sparse default hmem =>
      have hkeys := Deltas.map_key_toList_encode default cells
      have hroom : Tracked.HasRoom C cells.length := fun buffer ↦
        Nat.le_trans hsize (LawfulTracked.hasRoom buffer)
      simp only [Tracked.bufferOf_eq hroom (Tracked.accepts_of_map_key_eq hkeys haccepts)]
      exact ⟨_, rfl, .dense hkeys hnone⟩
  | some default =>
    have hsome : chosen?.map Tracked.key = some (Tracked.key default) := by
      rw [hfinal, Option.map_some] at hdefault
      exact hdefault.symm
    cases hkeeps with
    | dense =>
      simp only [Tracked.contents_appendAll haccepts]
      exact ⟨_, rfl, .sparse rfl hsome⟩
    | reverted hkeys =>
      simp only [Tracked.contents_appendAll (Tracked.accepts_of_map_key_eq hkeys haccepts)]
      exact ⟨_, rfl, .sparse hkeys hsome⟩
    | @sparse current hmem =>
      simp only
      by_cases hsame : Tracked.sameKey default (Deltas.encode current cells).default
      · rw [if_pos hsame]
        rw [Tracked.sameKey_iff.mp hsame] at hsome
        exact ⟨_, rfl, .sparse rfl hsome⟩
      · rw [if_neg hsame]
        exact ⟨_, rfl, .sparse (Deltas.map_key_toList_encode current cells) hsome⟩

end Accumulator

end Columnar
