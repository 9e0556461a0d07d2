import Columnar.Fault
import Columnar.Index.Field

/-!
# Formats of category indices

A category index is stored in the narrowest of five formats that holds the whole dictionary. The
widest one is a signed 32-bit number, so no index exceeds `2147483647`.
-/

set_option autoImplicit false
set_option relaxedAutoImplicit false

namespace Columnar

inductive IndexFormat where
  | uint2
  | uint4
  | uint8
  | uint16
  | int32
  deriving DecidableEq, Repr

namespace IndexFormat

/-- Narrowest first. -/
def all : List IndexFormat := [uint2, uint4, uint8, uint16, int32]

def name : IndexFormat → String
  | uint2 => "UINT2"
  | uint4 => "UINT4"
  | uint8 => "UINT8"
  | uint16 => "UINT16"
  | int32 => "INT32"

def bits : IndexFormat → Nat
  | uint2 => 2
  | uint4 => 4
  | uint8 => 8
  | uint16 => 16
  | int32 => 32

def maxIndex : IndexFormat → Nat
  | uint2 => 3
  | uint4 => 15
  | uint8 => 255
  | uint16 => 65535
  | int32 => 2147483647

def fits (format : IndexFormat) (index : Nat) : Bool := index ≤ format.maxIndex

theorem fits_iff {format : IndexFormat} {index : Nat} :
    format.fits index ↔ index ≤ format.maxIndex := by
  simp [fits]

/-- The narrowest format holding every index up to `index`. -/
def narrowest? (index : Nat) : Option IndexFormat := all.find? (·.fits index)

/-- The narrowest format for a dictionary of `size` entries, the missing entry included. -/
def ofDictionarySize? (size : Nat) : Option IndexFormat := narrowest? (size - 1)

/-- The average cost of one index. -/
def valueBytes (format : IndexFormat) : Float := Float.ofNat format.bits / 8

/-- The number of bytes that an array of `size` indices takes, as a word counts them. -/
def byteLength (format : IndexFormat) (size : Nat) : Nat := packedLength size format.bits

/-- The width of the fields of a format whose indices share bytes. The two wider ones have an
element per index. -/
def width? : IndexFormat → Option FieldWidth
  | uint2 => some .two
  | uint4 => some .four
  | uint8 => some .eight
  | uint16 | int32 => none

/-- The largest size that room can be asked for. One storage has only so many elements; bytes are
counted in a word that wraps, so that no size of theirs is refused. -/
def roomLimit : IndexFormat → Nat
  | uint2 | uint4 | uint8 => Word.maxUnsigned
  | uint16 => Word.elements 2
  | int32 => Word.elements 4

/-- The largest size of an array whose physical array is as long as its indices require: a word
still counts its bits, or one storage still has that many elements. -/
def sizeLimit : IndexFormat → Nat
  | uint2 => Word.maxUnsigned / 2
  | uint4 => Word.maxUnsigned / 4
  | uint8 => Word.maxUnsigned / 8
  | uint16 => Word.elements 2
  | int32 => Word.elements 4

def overflow (format : IndexFormat) (index : Nat) : Fault :=
  .formatOverflow format.name index format.maxIndex

/-- As `ofDictionarySize?`; a dictionary too large for every format is a fault. -/
def ofDictionarySize (size : Nat) : Outcome IndexFormat :=
  match ofDictionarySize? size with
  | some format => .ok format
  | none => .error (int32.overflow (size - 1))

end IndexFormat

end Columnar
