import Columnar.Ingest.ColumnBuilder
import Columnar.Proofs.Binary64.Rounding
import Columnar.Proofs.Dictionary.Interning
import Columnar.Proofs.Value.Clock

/-!
# Written values in normal form

A column shows a written value in normal form: a NaN is missing, and a finite number of an integer
column is rounded. Each kind of cell stands for one such value, and the key of a cell tells exactly
these values apart.
-/

set_option autoImplicit false
set_option relaxedAutoImplicit false

namespace Columnar

/-- The value that a column of this type shows for a value that was written. -/
def ColumnType.normalize (type : ColumnType) : Value → Value
  | .number number =>
    if number.isNaN then .missing
    else .number (if type = .integer && number.isFinite then number.round else number)
  | value => value

/-! ### Cells and values -/

theorem Binary64.eq_or_isNaN_of_key_eq {first second : Binary64} (h : first.key = second.key) :
    first = second ∨ (first.isNaN ∧ second.isNaN) := by
  have hbits {number : Binary64} (hnumber : number.isNaN = false) (other : Binary64)
      (hkey : other.key = number.bits) : other = number ∨ (number = .nan ∧ other.isNaN) := by
    unfold Binary64.key at hkey
    by_cases hother : other.isNaN
    · rw [if_pos hother] at hkey
      exact .inr ⟨congrArg Binary64.mk hkey.symm, hother⟩
    · rw [if_neg hother] at hkey
      exact .inl (congrArg Binary64.mk hkey)
  by_cases hfirst : first.isNaN
  · by_cases hsecond : second.isNaN
    · exact .inr ⟨hfirst, hsecond⟩
    · have hnumber : second.isNaN = false := by simpa using hsecond
      have hkey : first.key = second.bits := by
        rw [h, Binary64.key, if_neg hsecond]
      rcases hbits hnumber first hkey with heq | ⟨rfl, -⟩
      · exact .inl heq
      · exact absurd (by decide) hsecond
  · have hnumber : first.isNaN = false := by simpa using hfirst
    have hkey : second.key = first.bits := by
      rw [← h, Binary64.key, if_neg hfirst]
    rcases hbits hnumber second hkey with heq | ⟨rfl, -⟩
    · exact .inl heq.symm
    · exact absurd (by decide) hfirst

/-- Numbers of the same key are shown as the same value, and only these. -/
theorem Binary64.ofNumber_eq_iff {first second : Binary64} :
    Value.ofNumber first = Value.ofNumber second ↔ first.key = second.key := by
  constructor
  · intro h
    unfold Value.ofNumber at h
    unfold Binary64.key
    by_cases hfirst : first.isNaN <;> by_cases hsecond : second.isNaN <;> simp_all
  · intro h
    rcases Binary64.eq_or_isNaN_of_key_eq h with rfl | ⟨hfirst, hsecond⟩
    · rfl
    · simp [Value.ofNumber, hfirst, hsecond]

namespace ColumnType

variable {type : ColumnType} {value : Value}

theorem normalize_of_asNumber_eq_none (type : ColumnType) (h : value.asNumber = none) :
    type.normalize value = value := by
  cases value with
  | number number => contradiction
  | _ => rfl

theorem ofNumber_numberFor (htype : type = .real ∨ type = .integer) (h : type.accepts value) :
    Value.ofNumber (ColumnBuilder.numberFor type value) = type.normalize value := by
  cases value with
  | missing => rcases htype with rfl | rfl <;> rfl
  | number number =>
    rcases htype with rfl | rfl
    · rfl
    · show Value.ofNumber number.round = _
      unfold Value.ofNumber normalize
      rw [Binary64.isNaN_round]
      by_cases hfinite : number.isFinite
      · simp [hfinite]
      · have hround : number.round = number := by
          rw [Binary64.round_eq, if_pos (by simp [hfinite])]
        simp [hfinite, hround]
  | _ => rcases htype with rfl | rfl <;> contradiction

theorem timeValue_nanosOf (h : ColumnType.time.accepts value) :
    Column.timeValue (Column.nanosOf value) = value := by
  cases value with
  | missing => rfl
  | time time =>
    have hvalid : TimeOfDay.ofNanos? time.nanos = some time :=
      TimeOfDay.ofNanos?_eq_some_iff.mpr rfl
    unfold Column.timeValue Column.nanosOf
    simp only [hvalid, Option.elim_some]
  | _ => contradiction

theorem ofInstant?_instantOf (h : ColumnType.dateTime.accepts value) :
    Value.ofInstant? (Column.instantOf value) = value := by
  cases value with
  | missing => rfl
  | dateTime instant => rfl
  | _ => contradiction

theorem categoryOf_eq (h : ColumnType.nominal.accepts value) : Column.categoryOf value = value := by
  cases value with
  | missing => rfl
  | text text => rfl
  | _ => contradiction

/-- Only columns of numbers change a value. -/
theorem normalize_of_accepts (htype : type ≠ .real ∧ type ≠ .integer) (h : type.accepts value) :
    type.normalize value = value := by
  apply normalize_of_asNumber_eq_none
  cases value with
  | number number => cases type <;> simp_all [accepts]
  | _ => rfl

end ColumnType

end Columnar
