import Columnar.Index.Format

/-!
# The physical array behind category indices

The formats of up to eight bits share bytes, the two wider ones have an array element per index.
Nothing here is checked: reading past the end gives `0`, writing past the end does nothing, and an
index too large for the format loses its high bits. `Fits size` says that an array is as long as its
format requires for `size` indices; in such an array a write changes what its position reads and
nothing else (`get_set`).
-/

set_option autoImplicit false
set_option relaxedAutoImplicit false

namespace Columnar

inductive IndexCells where
  | uint2 (bytes : Array UInt8)
  | uint4 (bytes : Array UInt8)
  | uint8 (bytes : Array UInt8)
  | uint16 (shorts : Array UInt16)
  | int32 (ints : Array (Fin 2147483648))
  deriving DecidableEq, Repr

namespace IndexCells

/-! ### Length -/

def format : IndexCells → IndexFormat
  | uint2 _ => .uint2
  | uint4 _ => .uint4
  | uint8 _ => .uint8
  | uint16 _ => .uint16
  | int32 _ => .int32

/-- The number of elements of the physical array. -/
def length : IndexCells → Nat
  | uint2 bytes | uint4 bytes | uint8 bytes => bytes.size
  | uint16 shorts => shorts.size
  | int32 ints => ints.size

/-- The number of elements of the physical array that `size` indices need. -/
def lengthFor : IndexFormat → Nat → Nat
  | .uint2, size => bytesFor size 2
  | .uint4, size => bytesFor size 4
  | .uint8, size | .uint16, size | .int32, size => size

/-- The physical array has exactly the length that its format requires for `size` indices. -/
def Fits (cells : IndexCells) (size : Nat) : Prop := cells.length = lengthFor cells.format size

instance (cells : IndexCells) (size : Nat) : Decidable (cells.Fits size) :=
  inferInstanceAs (Decidable (_ = _))

/-! ### Reading and writing -/

/-- An index as the non-negative half of a signed 32-bit number. -/
def word (index : Nat) : Fin 2147483648 :=
  ⟨index % 2147483648, Nat.mod_lt index (by decide)⟩

def zeros (format : IndexFormat) (size : Nat) : IndexCells :=
  let length := lengthFor format size
  match format with
  | .uint2 => uint2 (Array.replicate length 0)
  | .uint4 => uint4 (Array.replicate length 0)
  | .uint8 => uint8 (Array.replicate length 0)
  | .uint16 => uint16 (Array.replicate length 0)
  | .int32 => int32 (Array.replicate length 0)

/-- The cells whose fields of this width are the bytes. -/
def ofBytes (width : FieldWidth) (bytes : Array UInt8) : IndexCells :=
  match width with
  | .two => uint2 bytes
  | .four => uint4 bytes
  | .eight => uint8 bytes

def get (cells : IndexCells) (position : Nat) : Nat :=
  match cells with
  | uint2 bytes => (FieldWidth.two.read? bytes position).getD 0
  | uint4 bytes => (FieldWidth.four.read? bytes position).getD 0
  | uint8 bytes => (FieldWidth.eight.read? bytes position).getD 0
  | uint16 shorts => (shorts[position]?.getD 0).toNat
  | int32 ints => (ints[position]?.getD 0).val

def set (cells : IndexCells) (position index : Nat) : IndexCells :=
  match cells with
  | uint2 bytes => uint2 (FieldWidth.two.write bytes position index)
  | uint4 bytes => uint4 (FieldWidth.four.write bytes position index)
  | uint8 bytes => uint8 (FieldWidth.eight.write bytes position index)
  | uint16 shorts => uint16 (shorts.setIfInBounds position (UInt16.ofNat index))
  | int32 ints => int32 (ints.setIfInBounds position (word index))

/-- Makes room for one more index after `size` of them; the last byte may have room left. -/
def grow (cells : IndexCells) (size : Nat) : IndexCells :=
  match cells with
  | uint2 bytes => uint2 (if bytes.size < bytesFor (size + 1) 2 then bytes.push 0 else bytes)
  | uint4 bytes => uint4 (if bytes.size < bytesFor (size + 1) 4 then bytes.push 0 else bytes)
  | uint8 bytes => uint8 (bytes.push 0)
  | uint16 shorts => uint16 (shorts.push 0)
  | int32 ints => int32 (ints.push 0)

/-! ### What stays -/

@[simp]
theorem format_zeros (format : IndexFormat) (size : Nat) : (zeros format size).format = format := by
  cases format <;> rfl

@[simp]
theorem format_set (cells : IndexCells) (position index : Nat) :
    (cells.set position index).format = cells.format := by
  cases cells <;> rfl

@[simp]
theorem format_grow (cells : IndexCells) (size : Nat) :
    (cells.grow size).format = cells.format := by
  cases cells <;> rfl

@[simp]
theorem length_set (cells : IndexCells) (position index : Nat) :
    (cells.set position index).length = cells.length := by
  cases cells <;> simp [set, length]

theorem fits_zeros (format : IndexFormat) (size : Nat) : (zeros format size).Fits size := by
  cases format <;> simp [Fits, zeros, length, lengthFor, IndexCells.format]

theorem fits_ofBytes {width : FieldWidth} {bytes : Array UInt8} {size : Nat}
    (h : bytes.size = bytesFor size width.bits) : (ofBytes width bytes).Fits size := by
  cases width with
  | two | four => exact h
  | eight =>
    simp only [Fits, ofBytes, length, lengthFor, IndexCells.format]
    simp only [bytesFor, FieldWidth.bits] at h
    omega

theorem Fits.set {cells : IndexCells} {size : Nat} (h : cells.Fits size) (position index : Nat) :
    (cells.set position index).Fits size := by
  simpa [Fits] using h

theorem Fits.grow {cells : IndexCells} {size : Nat} (h : cells.Fits size) :
    (cells.grow size).Fits (size + 1) := by
  cases cells with
  | uint2 bytes | uint4 bytes =>
    simp only [Fits, length, lengthFor, IndexCells.format, IndexCells.grow] at h ⊢
    rw [apply_ite Array.size, Array.size_push]
    unfold bytesFor at *
    split <;> omega
  | uint8 bytes => simpa [Fits, length, lengthFor, IndexCells.format, IndexCells.grow] using h
  | uint16 shorts => simpa [Fits, length, lengthFor, IndexCells.format, IndexCells.grow] using h
  | int32 ints => simpa [Fits, length, lengthFor, IndexCells.format, IndexCells.grow] using h

/-! ### What is read -/

@[simp]
theorem get_zeros (format : IndexFormat) (size position : Nat) :
    (zeros format size).get position = 0 := by
  cases format <;>
    simp [zeros, get, FieldWidth.read?, FieldWidth.extract, Array.getElem?_replicate] <;>
    split <;> simp

/-- A written position reads the index; every other one reads what it held. -/
theorem get_set {cells : IndexCells} {size position index : Nat} (h : cells.Fits size)
    (hposition : position < size) (hindex : cells.format.fits index) (other : Nat) :
    (cells.set position index).get other =
      if other = position then index else cells.get other := by
  rw [IndexFormat.fits_iff] at hindex
  cases cells with
  | uint2 bytes | uint4 bytes | uint8 bytes =>
    simp only [Fits, length, lengthFor, IndexCells.format, bytesFor] at h
    simp only [IndexCells.format, IndexFormat.maxIndex] at hindex
    simp only [set, get]
    rw [FieldWidth.read?_write _ _ _ _ _ (by simp only [FieldWidth.perByte]; omega)]
    split
    · simp only [Option.getD_some, FieldWidth.span]; omega
    · rfl
  | uint16 shorts =>
    simp only [Fits, length, lengthFor, IndexCells.format] at h
    simp only [IndexCells.format, IndexFormat.maxIndex] at hindex
    simp only [set, get, Array.getElem?_setIfInBounds]
    by_cases hother : other = position
    · subst hother
      simp only [↓reduceIte, h, hposition, Option.getD_some, UInt16.toNat_ofNat']
      omega
    · simp [hother, Ne.symm hother]
  | int32 ints =>
    simp only [Fits, length, lengthFor, IndexCells.format] at h
    simp only [IndexCells.format, IndexFormat.maxIndex] at hindex
    simp only [set, get, Array.getElem?_setIfInBounds]
    by_cases hother : other = position
    · subst hother
      simp only [↓reduceIte, h, hposition, Option.getD_some, word]
      omega
    · simp [hother, Ne.symm hother]

/-- Room for one more index leaves those before it alone. -/
theorem get_grow {cells : IndexCells} {size position : Nat} (h : cells.Fits size)
    (hposition : position < size) : (cells.grow size).get position = cells.get position := by
  cases cells with
  | uint2 bytes =>
    simp only [Fits, length, lengthFor, IndexCells.format, bytesFor] at h
    have hbyte : position / 4 < bytes.size := by omega
    simp only [IndexCells.grow, get]
    split
    · simp [FieldWidth.read?, FieldWidth.perByte, Array.getElem?_push, Nat.ne_of_lt hbyte]
    · rfl
  | uint4 bytes =>
    simp only [Fits, length, lengthFor, IndexCells.format, bytesFor] at h
    have hbyte : position / 2 < bytes.size := by omega
    simp only [IndexCells.grow, get]
    split
    · simp [FieldWidth.read?, FieldWidth.perByte, Array.getElem?_push, Nat.ne_of_lt hbyte]
    · rfl
  | uint8 bytes =>
    simp only [Fits, length, lengthFor, IndexCells.format] at h
    simp [IndexCells.grow, get, FieldWidth.read?, FieldWidth.perByte, Array.getElem?_push, h,
      Nat.ne_of_lt hposition]
  | uint16 shorts =>
    simp only [Fits, length, lengthFor, IndexCells.format] at h
    simp [IndexCells.grow, get, Array.getElem?_push, h, Nat.ne_of_lt hposition]
  | int32 ints =>
    simp only [Fits, length, lengthFor, IndexCells.format] at h
    simp [IndexCells.grow, get, Array.getElem?_push, h, Nat.ne_of_lt hposition]

/-- No position reads more than the format holds. -/
theorem fits_get (cells : IndexCells) (position : Nat) :
    cells.format.fits (cells.get position) := by
  rw [IndexFormat.fits_iff]
  cases cells with
  | uint2 bytes =>
    have hlt := FieldWidth.two.read?_getD_lt bytes position
    simp only [FieldWidth.span] at hlt
    simp only [get, format, IndexFormat.maxIndex]
    omega
  | uint4 bytes =>
    have hlt := FieldWidth.four.read?_getD_lt bytes position
    simp only [FieldWidth.span] at hlt
    simp only [get, format, IndexFormat.maxIndex]
    omega
  | uint8 bytes =>
    have hlt := FieldWidth.eight.read?_getD_lt bytes position
    simp only [FieldWidth.span] at hlt
    simp only [get, format, IndexFormat.maxIndex]
    omega
  | uint16 shorts =>
    have hlt := (shorts[position]?.getD 0).toNat_lt
    simp only [get, format, IndexFormat.maxIndex]
    omega
  | int32 ints =>
    have hlt := (ints[position]?.getD 0).isLt
    simp only [get, format, IndexFormat.maxIndex]
    omega

/-! ### Tabulating -/

/-- The indices that `index` gives for the positions below `size`. -/
def ofFn (format : IndexFormat) (size : Nat) (index : Nat → Nat) : IndexCells :=
  (List.range size).foldl (fun cells position ↦ cells.set position (index position))
    (zeros format size)

theorem format_foldl_set (index : Nat → Nat) (positions : List Nat) (cells : IndexCells) :
    (positions.foldl (fun cells position ↦ cells.set position (index position)) cells).format =
      cells.format := by
  induction positions generalizing cells with
  | nil => rfl
  | cons position positions ih => rw [List.foldl_cons, ih, format_set]

theorem Fits.foldl_set {cells : IndexCells} {size : Nat} (h : cells.Fits size)
    (index : Nat → Nat) (positions : List Nat) :
    (positions.foldl (fun cells position ↦ cells.set position (index position)) cells).Fits
      size := by
  induction positions generalizing cells with
  | nil => exact h
  | cons position positions ih => exact ih (h.set position (index position))

@[simp]
theorem format_ofFn (format : IndexFormat) (size : Nat) (index : Nat → Nat) :
    (ofFn format size index).format = format := by
  rw [ofFn, format_foldl_set, format_zeros]

theorem fits_ofFn (format : IndexFormat) (size : Nat) (index : Nat → Nat) :
    (ofFn format size index).Fits size :=
  (fits_zeros format size).foldl_set index _

/-- Indices that fit are read back. -/
theorem get_ofFn {format : IndexFormat} {size : Nat} {index : Nat → Nat}
    (h : ∀ position < size, format.fits (index position)) (position : Nat) :
    (ofFn format size index).get position = if position < size then index position else 0 := by
  suffices hcount : ∀ count ≤ size,
      ((List.range count).foldl (fun cells position ↦ cells.set position (index position))
        (zeros format size)).get position = if position < count then index position else 0 from
    hcount size (Nat.le_refl size)
  intro count hcount
  induction count with
  | zero => simp
  | succ count ih =>
    simp only [List.range_succ, List.foldl_append, List.foldl_cons, List.foldl_nil]
    rw [get_set ((fits_zeros format size).foldl_set index _) hcount
      (by rw [format_foldl_set, format_zeros]; exact h count hcount), ih (Nat.le_of_succ_le hcount)]
    by_cases hlast : position = count
    · simp [hlast]
    · have hiff : position < count + 1 ↔ position < count := by omega
      simp [hlast, hiff]

end IndexCells

end Columnar
