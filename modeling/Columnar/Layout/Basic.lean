import Columnar.Layout.Sparse
import Columnar.Mapping.Cache

/-!
# Layouts

The cells of a column are laid out densely, as a view through a mapping over a shared store, or
sparsely. All three read the same way, and deriving a layout through a mapping never changes the
source. A dense layout becomes a view or is gathered; a view composes its mapping with the new one;
a sparse layout is encoded again, or collected densely when sparse storage no longer pays.
-/

set_option autoImplicit false
set_option relaxedAutoImplicit false

namespace Columnar

inductive Arrangement where
  | dense
  | mapped
  | sparse
  deriving DecidableEq, Repr

inductive Layout (S C : Type) where
  | dense (store : S)
  | mapped (store : S) (mapping : Shared Mapping)
  | sparse (source : SparseStore S C)

namespace Layout

variable {S C : Type}

def arrangement : Layout S C → Arrangement
  | dense _ => .dense
  | mapped _ _ => .mapped
  | sparse _ => .sparse

/-- A store of the kind that this layout keeps its cells in. -/
def prototype : Layout S C → S
  | dense store => store
  | mapped store _ => store
  | sparse source => source.exceptions

/-- The mapping of a view. -/
def mapping? : Layout S C → Option (Shared Mapping)
  | mapped _ mapping => some mapping
  | _ => none

variable [Cell C] [Store S C]

def size : Layout S C → Nat
  | dense store => Store.size store
  | mapped _ mapping => mapping.value.size
  | sparse source => source.size

/-! ### Reading -/

/-- The cell that a mapping shows of a store. -/
def readThrough (store : S) (mapping : Mapping) (row : Nat) : C :=
  match mapping.resolve? row (Store.size store) with
  | some (some position) => Store.read store position
  | _ => Cell.missing

def read (layout : Layout S C) (row : Nat) : C :=
  match layout with
  | dense store => Store.read store row
  | mapped store mapping => readThrough store mapping.value row
  | sparse source => source.read row

def get? (layout : Layout S C) (row : Nat) : Option C :=
  if row < layout.size then some (layout.read row) else none

/-- How many rows from `start` on land inside a buffer when row `start + k` goes to
`offset + k * step`. -/
def fillCount (size start bufferSize offset step : Nat) : Nat :=
  if size ≤ start || bufferSize ≤ offset then 0
  else min ((bufferSize - offset - 1) / step + 1) (size - start)

/-- Writes the rows from `start` on to every `step`-th place of the buffer from `offset` on, each
cell converted. A sparse layout writes its default everywhere and then the exceptions. -/
def fill {T : Type} (layout : Layout S C) (buffer : Array T) (start offset step : Nat)
    (convert : C → T) : Array T :=
  let count := fillCount layout.size start buffer.size offset step
  let put (cell : Nat → C) : Array T :=
    (List.range count).foldl
      (fun filled k ↦ filled.setIfInBounds (offset + k * step) (convert (cell k))) buffer
  match layout with
  | dense store => put fun k ↦ Store.read store (start + k)
  | mapped store mapping => put fun k ↦ readThrough store mapping.value (start + k)
  | sparse source =>
    source.entries.foldl
      (fun filled (row, cell) ↦
        if start ≤ row && row < start + count then
          filled.setIfInBounds (offset + (row - start) * step) (convert cell)
        else filled)
      (put fun _ ↦ source.default)

/-- All cells in row order. -/
def toArray (layout : Layout S C) : Array C :=
  layout.fill (Array.replicate layout.size Cell.missing) 0 0 1 id

/-- A dense store with the cells of the layout. -/
def materialize : Layout S C → Outcome S
  | dense store => .ok store
  | mapped store mapping => .ok (Store.gather store mapping.value)
  | sparse source => Store.collect source.exceptions source.size source.toList

/-! ### Deriving layouts -/

/-- The layout of what a mapping shows of a sparse store: sparse again if that pays. -/
def ofSparse (sparse : SparseStore S C) (mapping : Mapping) : Outcome (Layout S C) := do
  let shown := sparse.shownDeviations mapping
  let rows := mapping.size
  let density : Density := ⟨rows, rows - shown.length⟩
  let exceptions ← Store.collect sparse.exceptions shown.length (shown.map Prod.snd)
  if density.sparsePaysOff (Store.valueBytes sparse.exceptions) defaultMinSparsity then
    let derived ← SparseStore.ofExceptions sparse.default rows (shown.map Prod.fst) exceptions
    return .sparse derived
  let derived : SparseStore S C :=
    ⟨sparse.default, rows, (shown.map Prod.fst).toArray, exceptions⟩
  return .dense (← Store.collect sparse.exceptions rows derived.toList)

/-- A view over the store, or the cells that it shows. -/
def viewOrGather (store : S) (mapping : Shared Mapping) (view : Bool) : Layout S C :=
  if view then mapped store mapping else dense (Store.gather store mapping.value)

/-- The layout of what a mapping shows. With `view` set, dense and mapped layouts share their store;
a sparse one never does. A composed mapping takes the token `fresh`. -/
def map (layout : Layout S C) (mapping : Shared Mapping) (view : Bool) (fresh : Token) :
    Outcome (Layout S C) :=
  match layout with
  | dense store => .ok (viewOrGather store mapping view)
  | mapped store current =>
    .ok (viewOrGather store ⟨fresh, current.value.compose mapping.value⟩ view)
  | sparse source => ofSparse source mapping.value

/-- As `map`, with the mapping of a view composed through a cache. -/
def mapCached (layout : Layout S C) (mapping : Shared Mapping) (view : Bool) (fresh : Token) :
    StateT MappingCache Outcome (Layout S C) := fun cache ↦
  match layout with
  | mapped store current =>
    let (composed, cache) := cache.compose current mapping fresh
    .ok (viewOrGather store composed view, cache)
  | _ => return (← layout.map mapping view fresh, cache)

/-- An empty dense layout over the same kind of store. -/
def stripped (layout : Layout S C) : Outcome (Layout S C) := do
  return .dense (← Store.collect layout.prototype 0 [])

/-- Rebuilds every store and the sparse default, keeping mappings and positions. -/
def rebuild (layout : Layout S C) (store : S → Outcome S) (cell : C → Outcome C) :
    Outcome (Layout S C) :=
  match layout with
  | dense current => return .dense (← store current)
  | mapped current mapping => return .mapped (← store current) mapping
  | sparse source => do
    let default ← cell source.default
    return .sparse ⟨default, source.size, source.positions, ← store source.exceptions⟩

end Layout

end Columnar
