/-!
# Faults

Every operation that can refuse its arguments answers with a `Fault`: an argument that breaks a
stated condition, an operation outside a column type's capabilities, an index past the end, a call
in the wrong state, a category index too large for a packed format, or a size too large for any
storage. `Fault.kindName` and `Fault.message` are the only places where a fault is put into words.
-/

set_option autoImplicit false
set_option relaxedAutoImplicit false

namespace Columnar

/-- Why an operation refused. -/
inductive Fault where
  | invalidArgument (argument reason : String)
  | unsupported (operation columnType : String)
  | outOfBounds (index length : Nat)
  | illegalState (reason : String)
  | formatOverflow (format : String) (value max : Nat)
  /-- A size or a count that its machine word does not hold. -/
  | tooLarge
  deriving DecidableEq, Repr

/-- The result of an operation that may refuse. -/
abbrev Outcome (α : Type) := Except Fault α

namespace Fault

def kindName : Fault → String
  | invalidArgument _ _ => "InvalidArgument"
  | unsupported _ _ => "Unsupported"
  | outOfBounds _ _ => "OutOfBounds"
  | illegalState _ => "IllegalState"
  | formatOverflow _ _ _ => "FormatOverflow"
  | tooLarge => "TooLarge"

def message : Fault → String
  | invalidArgument argument reason => s!"invalid argument {argument}: {reason}"
  | unsupported operation columnType =>
    s!"operation {operation} is not supported by {columnType} columns"
  | outOfBounds index length => s!"index {index} is out of bounds for length {length}"
  | illegalState reason => s!"illegal state: {reason}"
  | formatOverflow format value max =>
    s!"value {value} does not fit into {format} format (max {max})"
  | tooLarge => "too large for a machine word"

/-- Refuses `argument` unless `holds`; the fault quotes the violated `condition`. -/
def require (argument condition : String) (holds : Bool) : Outcome Unit :=
  if holds then .ok () else .error (.invalidArgument argument condition)

end Fault

end Columnar
