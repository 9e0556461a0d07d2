import Columnar.Density

/-!
# Options of writing

While values are written one by one, the storage is inspected once for sparsity; when writing ends,
the layout is chosen anew from all values or as the caller demands.
-/

set_option autoImplicit false
set_option relaxedAutoImplicit false

namespace Columnar

/-- The layout that a finished column gets. -/
inductive FinalLayout where
  /-- Sparse if that is smaller, dense otherwise. -/
  | auto
  | dense
  /-- Sparse whenever the column type has a sparse encoding. -/
  | sparse
  deriving DecidableEq, Repr

structure IngestOptions where
  /-- A hint: room is made for so many rows, and writing more or fewer makes no difference. -/
  expectedRows : Option Nat := none
  /-- The number of rows after which dense storage is inspected. -/
  checkRows : Nat := 1024
  /-- The share of default rows below which storage stays dense. -/
  minSparsity : Float := defaultMinSparsity
  finalLayout : FinalLayout := .auto

/-- The number of rows to make room for. -/
def IngestOptions.expected (options : IngestOptions) : Nat := options.expectedRows.getD 0

def IngestOptions.isDefault (options : IngestOptions) : Bool :=
  options.expectedRows.isNone && options.checkRows == 1024 &&
    options.minSparsity == defaultMinSparsity && options.finalLayout == .auto

end Columnar
