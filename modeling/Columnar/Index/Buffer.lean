import Columnar.Index.Array

/-!
# Arrays of a size that a caller chooses

The bits of an array with several indices a byte are counted in a word that wraps. A caller who asks
for more indices than such a word counts gets an array all the same, with the bytes for what is left
of the count: a `ShortArray`. It has the size that was asked for, and the indices whose bytes are
there can be read and written. Whatever reaches past them is the fault `tooLarge`.

An `IndexBuffer` is what a caller gets: an array, or a short one. Sizes within
`IndexFormat.sizeLimit` always give an array.
-/

set_option autoImplicit false
set_option relaxedAutoImplicit false

namespace Columnar

def FieldWidth.format : FieldWidth → IndexFormat
  | two => .uint2
  | four => .uint4
  | eight => .uint8

/-! ### Short arrays -/

/-- Bytes for fewer indices than the size says. -/
structure ShortArray where
  width : FieldWidth
  size : Nat
  bytes : Array UInt8
  size_bytes : bytes.size = packedLength size width.bits
  wraps : Word.maxUnsigned < size * width.bits
  deriving DecidableEq, Repr

namespace ShortArray

def format (array : ShortArray) : IndexFormat := array.width.format

def get? (array : ShortArray) (position : Nat) : Outcome (Option Nat) :=
  if position < array.size then
    match array.width.read? array.bytes position with
    | some index => .ok (some index)
    | none => .error .tooLarge
  else .ok none

def set (array : ShortArray) (position index : Nat) : Outcome ShortArray :=
  if array.size ≤ position then .error (.outOfBounds position array.size)
  else if array.format.fits index then
    if position / array.width.perByte < array.bytes.size then
      .ok { array with
        bytes := array.width.write array.bytes position index
        size_bytes := by rw [FieldWidth.size_write, array.size_bytes] }
    else .error .tooLarge
  else .error (array.format.overflow index)

/-- The byte of one more index is not there, however many bytes are counted for it. -/
def push (array : ShortArray) (index : Nat) : Attempt ShortArray Unit :=
  if array.format.fits index then .refused .tooLarge array
  else .refused (array.format.overflow index) array

/-- Another format would have to be given every index. -/
def widen (array : ShortArray) (format : IndexFormat) : Outcome ShortArray := do
  Fault.require "format" "format.bits() >= self.format.bits()" (array.format.bits ≤ format.bits)
  if format = array.format then return array else throw .tooLarge

end ShortArray

/-! ### Buffers -/

inductive IndexBuffer where
  | whole (array : IndexArray)
  | short (array : ShortArray)
  deriving DecidableEq, Repr

namespace IndexBuffer

def size : IndexBuffer → Nat
  | whole array => array.size
  | short array => array.size

def format : IndexBuffer → IndexFormat
  | whole array => array.format
  | short array => array.format

/-- The array, if all of its indices can be read. -/
def whole? : IndexBuffer → Outcome IndexArray
  | whole array => .ok array
  | short _ => .error .tooLarge

/-- Bytes as many as a word counts for the size. -/
def ofCounted (width : FieldWidth) (bytes : Array UInt8) (size : Nat)
    (h : bytes.size = packedLength size width.bits) : IndexBuffer :=
  if hbits : size * width.bits ≤ Word.maxUnsigned then
    .whole ⟨size, .ofBytes width bytes,
      IndexCells.fits_ofBytes (h.trans (packedLength_of_le hbits))⟩
  else .short ⟨width, size, bytes, h, Nat.lt_of_not_le hbits⟩

/-- Zeros of the size, as far as there are bytes. -/
def ofSize (format : IndexFormat) (size : Nat) : Outcome IndexBuffer := do
  Word.requireRoom size format.roomLimit
  match format.width? with
  | some width =>
    return ofCounted width (Array.replicate (packedLength size width.bits) 0) size
      Array.size_replicate
  | none => return .whole (.zeros format size)

/-- Wraps bytes whose length is the one that a word counts. -/
def ofFields (width : FieldWidth) (bytes : Array UInt8) (size : Nat) : Outcome IndexBuffer :=
  if h : bytes.size = packedLength size width.bits then .ok (ofCounted width bytes size h)
  else
    .error (.invalidArgument "bytes"
      s!"bytes.len() == PackedFormat::U{width.bits}.byte_len(len)")

def ofBytes2 (bytes : Array UInt8) (size : Nat) : Outcome IndexBuffer := ofFields .two bytes size

def ofBytes4 (bytes : Array UInt8) (size : Nat) : Outcome IndexBuffer := ofFields .four bytes size

def get? : IndexBuffer → Nat → Outcome (Option Nat)
  | whole array, position => .ok (array.get? position)
  | short array, position => array.get? position

def set : IndexBuffer → Nat → Nat → Outcome IndexBuffer
  | whole array, position, index => return .whole (← array.set position index)
  | short array, position, index => return .short (← array.set position index)

def push : IndexBuffer → Nat → Attempt IndexBuffer Unit
  | whole array, index => (array.push index).within .whole
  | short array, index => (array.push index).within .short

/-- Makes room for more indices, which changes none. -/
def reserve : IndexBuffer → Nat → Outcome IndexBuffer
  | whole array, additional => return .whole (← array.reserve additional)
  | short array, _ => .ok (.short array)

def widen : IndexBuffer → IndexFormat → Outcome IndexBuffer
  | whole array, format => return .whole (← array.widen format)
  | short array, format => return .short (← array.widen format)

/-- Stores the indices in order from position `0`. -/
def store (buffer : IndexBuffer) (indices : List Nat) : Outcome IndexBuffer :=
  indices.zipIdx.foldlM (fun buffer (index, position) ↦ buffer.set position index) buffer

/-- The indices in a buffer of `size`; the positions that they do not reach hold `0`. -/
def collect (format : IndexFormat) (size : Nat) (indices : List Nat) : Outcome IndexBuffer := do
  (← ofSize format size).store indices

end IndexBuffer

end Columnar
