import Columnar.Binary64
import Columnar.Identity
import Columnar.Value.Clock
import Columnar.Value.TextSet

/-!
# Values

A `Value` is what a cell of a column holds, read as an object. A custom value is opaque: all that is
known of it is which object it is.
-/

set_option autoImplicit false
set_option relaxedAutoImplicit false

namespace Columnar

inductive Value where
  | missing
  | number (value : Binary64)
  | text (value : String)
  | textSet (set : TextSet)
  | time (value : TimeOfDay)
  | dateTime (instant : Instant)
  | custom (object : Token)
  deriving DecidableEq, Repr

namespace Value

/-- A number as a cell; NaN is missing. -/
def ofNumber (value : Binary64) : Value :=
  if value.isNaN then .missing else .number value

def ofNumber? (value : Option Binary64) : Value := value.elim .missing ofNumber

def ofInstant? (instant : Option Instant) : Value := instant.elim .missing .dateTime

def isMissing : Value → Bool
  | missing => true
  | _ => false

def asNumber : Value → Option Binary64
  | number value => some value
  | _ => none

def asText : Value → Option String
  | text value => some value
  | _ => none

def kindName : Value → String
  | missing => "missing"
  | number _ => "number"
  | text _ => "text"
  | textSet _ => "text set"
  | time _ => "time"
  | dateTime _ => "date-time"
  | custom _ => "custom"

/-- Equality of values: numbers compare as numbers, so NaN differs from itself and the two zeros are
equal; custom values are equal when they are the same object. -/
def equal : Value → Value → Bool
  | number first, number second => first.numericEq second
  | first, second => first = second

/-- The order of two values of one sortable kind; all else ties. -/
def compare : Value → Value → Ordering
  | number first, number second => first.compare second
  | text first, text second => Ord.compare first second
  | time first, time second => Ord.compare first.nanos second.nanos
  | dateTime first, dateTime second => first.compare second
  | _, _ => .eq

end Value

end Columnar
