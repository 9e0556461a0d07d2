import Columnar.Fault

/-!
# Machine words

Sizes, and counts of bits and of nanoseconds, are kept in words of 64 bits. Their sums, differences
and products wrap: a word keeps a number modulo the number of its values. What cannot wrap is the
room for the elements of one storage: it has at most as many bytes as a signed word counts, and to
ask for more is the fault `tooLarge`.
-/

set_option autoImplicit false
set_option relaxedAutoImplicit false

namespace Columnar.Word

/-- The number of values of a word. -/
def span : Nat := 18446744073709551616

def maxUnsigned : Nat := 18446744073709551615

def maxSigned : Nat := 9223372036854775807

/-! ### Wrapping -/

/-- What an unsigned word keeps of a number. -/
def wrap (number : Nat) : Nat := number % span

/-- What a signed word keeps of a number: the one between its bounds that differs by a multiple of
`span`. -/
def wrapSigned (number : Int) : Int := Int.bmod number span

/-- The difference of two unsigned words. -/
def difference (first second : Nat) : Nat :=
  if second ≤ first then first - second else wrap (first + span - second)

theorem wrap_of_le {number : Nat} (h : number ≤ maxUnsigned) : wrap number = number :=
  Nat.mod_eq_of_lt (Nat.lt_succ_of_le h)

theorem wrapSigned_of_le {number : Nat} (h : number ≤ maxSigned) :
    wrapSigned number = number := by
  unfold wrapSigned maxSigned span at *
  exact Int.bmod_eq_of_le (by omega) (by omega)

/-- A signed word shows a number up to its upper bound exactly when an unsigned one does. -/
theorem wrapSigned_eq_natCast_iff {number small : Nat} (h : small ≤ maxSigned) :
    wrapSigned number = small ↔ wrap number = small := by
  unfold wrapSigned wrap maxSigned span at *
  rw [Int.bmod_def]
  omega

/-- A signed word shows a number outside of a range exactly when an unsigned one does. -/
theorem wrapSigned_outside_iff {number bound : Nat} (h : bound ≤ maxSigned) :
    wrapSigned number < 0 ∨ bound ≤ wrapSigned number ↔ bound ≤ wrap number := by
  unfold wrapSigned wrap maxSigned span at *
  rw [Int.bmod_def]
  omega

theorem difference_of_le {first second : Nat} (h : second ≤ first) :
    difference first second = first - second := if_pos h

/-! ### Room -/

/-- The number of elements of this many bytes that one storage can hold. -/
def elements (bytes : Nat) : Nat := maxSigned / bytes

/-- Refuses a size beyond a limit. -/
def requireRoom (size limit : Nat) : Outcome Unit :=
  if size ≤ limit then .ok () else .error .tooLarge

theorem requireRoom_eq_ok_iff {size limit : Nat} :
    requireRoom size limit = .ok () ↔ size ≤ limit := by
  by_cases h : size ≤ limit <;> simp [requireRoom, h]

end Columnar.Word
