import Columnar.Ingest.TableBuilder
import Columnar.Proofs.Ingest.Columns

/-!
# The slots of a table builder

A slot holds the values of its column: all but the last of them in the builder, the last one staged
(`Slot.Holds`). Handing over the staged value fails only for want of room (`Slot.Holds.push_cases`),
and so do all slots together (`commitAll_cases`). Once they are handed over all columns are finished
(`exists_finishAll`).
-/

set_option autoImplicit false
set_option relaxedAutoImplicit false

namespace Columnar

namespace ColumnBuilder

variable {type : ColumnType} {options : IngestOptions} {values : List Value}
  {builder next : ColumnBuilder}

theorem holds_of_write (h : write type options values = .ok builder)
    (hlength : values.length ≤ rowLimit) (haccepts : ∀ value ∈ values, type.accepts value) :
    builder.Holds options values type := by
  by_cases hhalts : Halts type options values
  · rw [hhalts.write_eq hlength haccepts] at h
    contradiction
  · obtain ⟨other, hother, hholds⟩ := exists_write hhalts hlength haccepts
    rw [h] at hother
    rwa [Except.ok.inj hother]

theorem write_append_singleton {value : Value} (h : write type options values = .ok builder)
    (hpush : builder.push value = .done () next) :
    write type options (values ++ [value]) = .ok next := by
  obtain ⟨start, hstart, hrun⟩ := Outcome.bind_eq_ok_iff.mp h
  rw [Attempt.reached_runAll] at hrun
  unfold write
  rw [hstart, Outcome.ok_bind, Attempt.reached_runAll, List.foldlM_append, hrun]
  show (builder.push value).reached >>= _ = _
  rw [hpush]
  rfl

end ColumnBuilder

namespace Slot

/-- The slot after these values of its column, the latest first. -/
structure Holds (slot : Slot) (options : IngestOptions) (type : ColumnType) (values : List Value) :
    Prop where
  write_eq : ColumnBuilder.write type options values.tail.reverse = .ok slot.builder
  staged_eq : slot.staged = values.headD .missing
  accepts : ∀ value ∈ values, type.accepts value

variable {slot : Slot} {options : IngestOptions} {type : ColumnType} {values : List Value}

/-- The builder holds all values but the latest. -/
theorem Holds.builder_holds (h : slot.Holds options type values)
    (hlength : values.length ≤ rowLimit) :
    slot.builder.Holds options values.tail.reverse type := by
  have htail : values.tail.reverse.length ≤ rowLimit := by
    rw [List.length_reverse, List.length_tail]
    omega
  exact ColumnBuilder.holds_of_write h.write_eq htail fun value hvalue ↦
    h.accepts value (List.mem_of_mem_tail (List.mem_reverse.mp hvalue))

/-- Another value is staged in place of the latest one. -/
theorem Holds.stage (h : slot.Holds options type values) {value : Value}
    (haccepts : type.accepts value) :
    ({ slot with staged := value } : Slot).Holds options type (value :: values.tail) where
  write_eq := h.write_eq
  staged_eq := rfl
  accepts := by
    intro other hother
    rcases List.mem_cons.mp hother with rfl | hother
    · exact haccepts
    · exact h.accepts other (List.mem_of_mem_tail hother)

/-- Handing over the staged value fails only for want of room. -/
theorem Holds.push_cases (h : slot.Holds options type values) (hvalues : values ≠ [])
    (hlength : values.length ≤ rowLimit) :
    ∃ next : ColumnBuilder, next.Holds options values.reverse type ∧
      (slot.builder.push slot.staged).LeadsTo next ColumnBuilder.LacksRoom := by
  have hholds := h.builder_holds hlength
  obtain ⟨last, earlier, rfl⟩ := List.exists_cons_of_ne_nil hvalues
  rw [List.tail_cons] at hholds
  have hearlier : earlier.reverse.length < rowLimit := by
    rw [List.length_cons] at hlength
    rw [List.length_reverse]
    exact Nat.lt_of_succ_le hlength
  obtain ⟨next, hnext, hpush, -⟩ := ColumnBuilder.push_cases hholds hearlier
    (h.accepts last List.mem_cons_self)
  rw [List.reverse_cons, h.staged_eq]
  exact ⟨next, hnext, hpush⟩

/-- The builder has written all values once the staged one is handed over. -/
theorem Holds.write_of_push (h : slot.Holds options type values) (hvalues : values ≠ [])
    {next : ColumnBuilder} (hpush : slot.builder.push slot.staged = .done () next) :
    ColumnBuilder.write type options values.reverse = .ok next := by
  obtain ⟨last, earlier, rfl⟩ := List.exists_cons_of_ne_nil hvalues
  rw [h.staged_eq] at hpush
  rw [List.reverse_cons]
  exact ColumnBuilder.write_append_singleton h.write_eq hpush

/-! ### All slots -/

/-- The slot with its staged value handed over. -/
def committed (slot : Slot) : Slot := { builder := (slot.builder.push slot.staged).state }

/-- All staged values are handed over, unless room is lacking for one of them. -/
theorem commitAll_cases {slots : List Slot}
    (h : ∀ slot ∈ slots, ∃ next,
      (slot.builder.push slot.staged).LeadsTo next ColumnBuilder.LacksRoom) :
    (commitAll slots = .done () (slots.map committed) ∧
      ∀ slot ∈ slots, slot.builder.push slot.staged = .done () slot.committed.builder) ∨
    ∃ slot ∈ slots, slot.committed.builder.LacksRoom ∧
      ∃ next, commitAll slots = .refused .tooLarge next ∧ slot.committed ∈ next := by
  induction slots with
  | nil => exact .inl ⟨rfl, fun _ hslot ↦ absurd hslot List.not_mem_nil⟩
  | cons slot rest ih =>
    obtain ⟨⟨next, hpush⟩, hrest⟩ := List.forall_mem_cons.mp h
    have hcommitted : slot.committed.builder = next := hpush.state_eq
    unfold commitAll
    rcases hpush with hpush | ⟨hpush, hlacks⟩
    · have hslot : slot.committed = { builder := next } := by rw [committed, hpush, Attempt.state]
      simp only [hpush]
      rcases ih hrest with ⟨hall, hdone⟩ | ⟨other, hother, hlacks, failed, hfailed, hmem⟩
      · refine .inl ⟨?_, List.forall_mem_cons.mpr ⟨by rw [hpush, hcommitted], hdone⟩⟩
        simp only [hall, Attempt.within, List.map_cons, hslot]
      · refine .inr ⟨other, List.mem_cons_of_mem _ hother, hlacks,
          { builder := next } :: failed, ?_, List.mem_cons_of_mem _ hmem⟩
        simp only [hfailed, Attempt.within]
    · simp only [hpush]
      refine .inr ⟨slot, List.mem_cons_self, hcommitted ▸ hlacks, _, rfl, ?_⟩
      rw [committed, hpush]
      exact List.mem_cons_self

/-- Every column is finished with a token of its own. -/
theorem exists_finishAll {final : FinalLayout} {slots : List Slot} {fresh : Token}
    (h : ∀ (place : Nat) (slot : Slot), slots[place]? = some slot →
      ∃ column, slot.builder.finish final (fresh + place) = .ok column) :
    ∃ columns, finishAll final fresh slots = .ok columns ∧ columns.length = slots.length ∧
      ∀ (place : Nat) (slot : Slot), slots[place]? = some slot →
        ∃ column, slot.builder.finish final (fresh + place) = .ok column ∧
          columns[place]? = some column := by
  induction slots generalizing fresh with
  | nil =>
    refine ⟨[], rfl, rfl, ?_⟩
    intro place slot hslot
    rw [List.getElem?_nil] at hslot
    contradiction
  | cons slot rest ih =>
    obtain ⟨column, hcolumn⟩ := h 0 slot rfl
    have hnext (place : Nat) : fresh + 1 + place = fresh + (place + 1) := by
      rw [Nat.add_assoc, Nat.add_comm 1]
    obtain ⟨columns, hcolumns, hlength, hfinish⟩ := @ih (fresh + 1) fun place other hother ↦ by
      rw [hnext]
      exact h (place + 1) other hother
    refine ⟨column :: columns, ?_, ?_, ?_⟩
    · have hfirst := hcolumn
      rw [Nat.add_zero] at hfirst
      unfold finishAll
      simp only [hfirst, hcolumns, Outcome.ok_bind]
      rfl
    · rw [List.length_cons, List.length_cons, hlength]
    · intro place other hother
      cases place with
      | zero =>
        cases hother
        exact ⟨column, hcolumn, rfl⟩
      | succ place =>
        rw [← hnext]
        exact hfinish place other hother

end Slot

end Columnar
