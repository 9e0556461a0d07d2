import Columnar.Proofs.Outcome
import Columnar.Value.Clock

/-!
# Reading a clock

A clock that shows a number of hours, minutes and seconds, each as large as 32 bits allow, is read
as one number of seconds. Its nanoseconds are kept in a signed word before they are checked, so the
clock is a time of day exactly when what the word keeps of them lies within a day
(`ofClock_eq_ok_iff`). As long as they do not wrap, that is the case when the seconds lie within a
day, however they are spread over the three. Beyond, a clock may be read as a time of day that it
does not show (`exists_ofClock_wrapped`).
-/

set_option autoImplicit false
set_option relaxedAutoImplicit false

namespace Columnar.TimeOfDay

/-! ### Nanoseconds -/

theorem ofNanos?_eq_some_iff {nanos : Int} {time : TimeOfDay} :
    ofNanos? nanos = some time ↔ nanos = time.nanos := by
  unfold ofNanos?
  constructor
  · intro h
    split at h
    · next hday =>
      cases h
      exact (Int.toNat_of_nonneg hday.1).symm
    · contradiction
  · rintro rfl
    have hlt := time.nanos_lt
    rw [dif_pos (by omega)]
    rfl

theorem ofNanos?_eq_none_iff {nanos : Int} :
    ofNanos? nanos = none ↔ nanos < 0 ∨ nanosPerDay ≤ nanos := by
  unfold ofNanos?
  split
  · simp only [reduceCtorEq, false_iff]
    omega
  · simp only [true_iff]
    omega

theorem ofNanos_eq_ok_iff {nanos : Int} {time : TimeOfDay} :
    ofNanos nanos = .ok time ↔ nanos = time.nanos := by
  rw [← ofNanos?_eq_some_iff]
  unfold ofNanos
  cases ofNanos? nanos <;> simp

theorem ofNanos_eq_error_iff {nanos : Int} {fault : Fault} :
    ofNanos nanos = .error fault ↔
      (nanos < 0 ∨ nanosPerDay ≤ nanos) ∧ fault = outsideDay nanos := by
  rw [← ofNanos?_eq_none_iff]
  unfold ofNanos
  cases ofNanos? nanos <;> simp [eq_comm]

/-! ### Clocks -/

/-- The seconds that a clock shows, without a bound. -/
def clockSeconds (hour minute second : UInt32) : Nat :=
  hour.toNat * 3600 + minute.toNat * 60 + second.toNat

/-- The largest number of seconds whose nanoseconds a signed word holds. -/
def lastCountedSecond : Nat := 9223372036

/-- The largest number of seconds whose nanoseconds an unsigned word holds. -/
def lastUnwrappedSecond : Nat := 18446744073

/-- How a clock is read. -/
structure ReadsClock (hour minute second : UInt32) : Prop where
  /-- Only what a word keeps of the nanoseconds counts. -/
  ok_iff : ∀ time, ofClock hour minute second = .ok time ↔
    time.nanos = Word.wrap (clockSeconds hour minute second * nanosPerSecond)
  error_iff : ∀ fault, ofClock hour minute second = .error fault ↔
    nanosPerDay ≤ Word.wrap (clockSeconds hour minute second * nanosPerSecond) ∧
      fault = outsideDay
        (Word.wrapSigned (clockSeconds hour minute second * nanosPerSecond : Nat))
  within_day : clockSeconds hour minute second ≤ lastUnwrappedSecond →
    ((∃ time, ofClock hour minute second = .ok time) ↔ clockSeconds hour minute second < 86400) ∧
      ∀ time, ofClock hour minute second = .ok time ↔
        time.nanos = clockSeconds hour minute second * nanosPerSecond
  /-- The refusal is the one of the exact number of nanoseconds. -/
  outside_day : 86400 ≤ clockSeconds hour minute second →
    clockSeconds hour minute second ≤ lastCountedSecond →
      ofClock hour minute second =
        .error (outsideDay (clockSeconds hour minute second * nanosPerSecond : Nat))

variable {hour minute second : UInt32}

theorem ofClock_eq (hour minute second : UInt32) :
    ofClock hour minute second = ofNanos (Word.wrapSigned
      (clockSeconds hour minute second * nanosPerSecond : Nat)) := rfl

theorem nanos_le_maxSigned (time : TimeOfDay) : time.nanos ≤ Word.maxSigned :=
  Nat.le_trans (Nat.le_of_lt time.nanos_lt) (by decide)

theorem ofClock_eq_ok_iff {time : TimeOfDay} :
    ofClock hour minute second = .ok time ↔
      time.nanos = Word.wrap (clockSeconds hour minute second * nanosPerSecond) := by
  rw [ofClock_eq, ofNanos_eq_ok_iff,
    Word.wrapSigned_eq_natCast_iff time.nanos_le_maxSigned, eq_comm]

theorem ofClock_eq_error_iff {fault : Fault} :
    ofClock hour minute second = .error fault ↔
      nanosPerDay ≤ Word.wrap (clockSeconds hour minute second * nanosPerSecond) ∧
        fault = outsideDay
          (Word.wrapSigned (clockSeconds hour minute second * nanosPerSecond : Nat)) := by
  rw [ofClock_eq, ofNanos_eq_error_iff, Word.wrapSigned_outside_iff (by decide)]

/-- An unsigned word holds the nanoseconds of so many seconds. -/
theorem wrap_mul_nanosPerSecond {seconds : Nat} (h : seconds ≤ lastUnwrappedSecond) :
    Word.wrap (seconds * nanosPerSecond) = seconds * nanosPerSecond := by
  apply Word.wrap_of_le
  unfold nanosPerSecond Word.maxUnsigned
  unfold lastUnwrappedSecond at h
  omega

/-- Nanoseconds within a day are those of seconds within a day. -/
theorem mul_lt_nanosPerDay_iff {seconds : Nat} :
    seconds * nanosPerSecond < nanosPerDay ↔ seconds < 86400 :=
  Nat.mul_lt_mul_right (by decide)

/-- Whatever a clock shows, it is a time of day exactly when what a word keeps of its nanoseconds
lies within a day. As long as the nanoseconds do not wrap, that is when the clock itself does; and
as long as a signed word holds them, the refusal names them. -/
theorem ofClock_within_day (hour minute second : UInt32) : ReadsClock hour minute second where
  ok_iff _ := ofClock_eq_ok_iff
  error_iff _ := ofClock_eq_error_iff
  within_day hseconds := by
    simp only [ofClock_eq_ok_iff, wrap_mul_nanosPerSecond hseconds, implies_true, and_true]
    constructor
    · rintro ⟨time, htime⟩
      exact mul_lt_nanosPerDay_iff.mp (htime ▸ time.nanos_lt)
    · intro hday
      exact ⟨⟨_, mul_lt_nanosPerDay_iff.mpr hday⟩, rfl⟩
  outside_day hday hseconds := by
    have hcounted : clockSeconds hour minute second * nanosPerSecond ≤ Word.maxSigned := by
      unfold nanosPerSecond Word.maxSigned
      unfold lastCountedSecond at hseconds
      omega
    rw [ofClock_eq, Word.wrapSigned_of_le hcounted, ofNanos_eq_error_iff]
    have hlt := @mul_lt_nanosPerDay_iff (clockSeconds hour minute second)
    exact ⟨.inr (by omega), rfl⟩

/-- A clock of 5124095 hours, 34 minutes and 34 seconds is read as less than a second. -/
theorem exists_ofClock_wrapped :
    ∃ (hour minute second : UInt32) (time : TimeOfDay),
      86400 ≤ clockSeconds hour minute second ∧ ofClock hour minute second = .ok time ∧
        time.nanos = 290448384 :=
  ⟨5124095, 34, 34, ⟨290448384, by decide⟩, by decide, ofClock_eq_ok_iff.mpr (by decide), rfl⟩

end Columnar.TimeOfDay
