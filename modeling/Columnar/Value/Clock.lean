import Columnar.Word

/-!
# Times and instants

A `TimeOfDay` is a nanosecond of a day. An `Instant` is a number of seconds since the epoch with a
nanosecond part. Storage reserves one number of each kind for missing cells; neither is a valid time
or instant.
-/

set_option autoImplicit false
set_option relaxedAutoImplicit false

namespace Columnar

def nanosPerSecond : Nat := 1000000000

def nanosPerDay : Nat := 86400 * nanosPerSecond

structure TimeOfDay where
  nanos : Nat
  nanos_lt : nanos < nanosPerDay
  deriving DecidableEq, Repr

namespace TimeOfDay

/-- Stands for a missing time of day. -/
def missingNanos : Int := 9223372036854775807

def ofNanos? (nanos : Int) : Option TimeOfDay :=
  if h : 0 ≤ nanos ∧ nanos < nanosPerDay then some ⟨nanos.toNat, by omega⟩ else none

def outsideDay (nanos : Int) : Fault :=
  .invalidArgument "nanos" s!"{nanos} is not a nanosecond of day"

def ofNanos (nanos : Int) : Outcome TimeOfDay :=
  match ofNanos? nanos with
  | some time => .ok time
  | none => .error (outsideDay nanos)

/-- The time shown by a clock. A signed word counts the nanoseconds, before anything is checked. -/
def ofClock (hour minute second : UInt32) : Outcome TimeOfDay :=
  let seconds := hour.toNat * 3600 + minute.toNat * 60 + second.toNat
  ofNanos (Word.wrapSigned (seconds * nanosPerSecond : Nat))

end TimeOfDay

/-- Stands for a missing instant. -/
def Instant.missingSeconds : Int := -9223372036854775808

structure Instant where
  seconds : Int
  nanos : Nat
  seconds_ne : seconds ≠ Instant.missingSeconds
  nanos_lt : nanos < nanosPerSecond
  deriving DecidableEq, Hashable, Repr

namespace Instant

def ofParts (seconds : Int) (nanos : Nat) : Outcome Instant :=
  if hseconds : seconds = missingSeconds then
    .error (.invalidArgument "seconds" "reserved missing marker")
  else if hnanos : nanos < nanosPerSecond then .ok ⟨seconds, nanos, hseconds, hnanos⟩
  else .error (.invalidArgument "nanos" s!"{nanos} >= 1e9")

def ofSeconds (seconds : Int) : Outcome Instant := ofParts seconds 0

/-- The order on the time line. -/
def compare (first second : Instant) : Ordering :=
  (Ord.compare first.seconds second.seconds).then (Ord.compare first.nanos second.nanos)

end Instant

end Columnar
