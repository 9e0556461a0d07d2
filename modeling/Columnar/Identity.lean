/-!
# Identity

Mappings and dictionaries are shared between columns, and the composition cache and dictionary
compaction distinguish the very same object from an equal one. A `Shared` value carries the token
of the object it is; two of them are the same object exactly when the tokens agree. An operation
that makes a new object takes the token to give it, so the supply of tokens stays with the caller.
-/

set_option autoImplicit false
set_option relaxedAutoImplicit false

namespace Columnar

/-- The identity of an object. -/
abbrev Token := Nat

/-- A value together with the identity of the object holding it. -/
structure Shared (α : Type) where
  token : Token
  value : α

namespace Shared

variable {α : Type}

/-- The two handles lead to one object. -/
def same (first second : Shared α) : Bool :=
  first.token == second.token

end Shared

end Columnar
