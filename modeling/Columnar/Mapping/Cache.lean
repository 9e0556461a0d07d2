import Columnar.Identity
import Columnar.Mapping

/-!
# The composition cache

Deriving many views through the same mapping composes the same pair of mappings again and again.
The cache composes each pair once. A pair is recognised by the identity of its two mappings, never
by their entries, and a stored composition keeps both of them, so their tokens stay taken for as
long as the composition can be found.
-/

set_option autoImplicit false
set_option relaxedAutoImplicit false

namespace Columnar

/-- A composition made earlier, with the two mappings it was made of. -/
structure Composition where
  base : Shared Mapping
  next : Shared Mapping
  composed : Shared Mapping

structure MappingCache where
  compositions : List Composition := []
  hits : Nat := 0

namespace MappingCache

def empty : MappingCache := {}

def size (cache : MappingCache) : Nat := cache.compositions.length

def clear (cache : MappingCache) : MappingCache := { cache with compositions := [] }

def find? (cache : MappingCache) (base next : Shared Mapping) : Option Composition :=
  cache.compositions.find? fun stored ↦ stored.base.same base && stored.next.same next

/-- The composition of `base` and `next`: the stored one if this pair was composed before, and
otherwise a new mapping, which takes the token `fresh`. -/
def compose (cache : MappingCache) (base next : Shared Mapping) (fresh : Token) :
    Shared Mapping × MappingCache :=
  match cache.find? base next with
  | some stored => (stored.composed, { cache with hits := cache.hits + 1 })
  | none =>
    let composed : Shared Mapping := ⟨fresh, base.value.compose next.value⟩
    (composed, { cache with compositions := ⟨base, next, composed⟩ :: cache.compositions })

end MappingCache

end Columnar
