import Columnar.Word

/-!
# Fields of a byte

Small unsigned numbers share bytes: four of two bits, two of four bits, or one of eight. Position
`0` is in the lowest bits of the first byte. Writing keeps the low bits of the number and leaves the
other fields of its byte alone; `read?_write` says so for whole arrays.
-/

set_option autoImplicit false
set_option relaxedAutoImplicit false

namespace Columnar

inductive FieldWidth where
  | two
  | four
  | eight
  deriving DecidableEq, Repr

namespace FieldWidth

def bits : FieldWidth → Nat
  | two => 2
  | four => 4
  | eight => 8

/-- The number of values of a field. -/
def span : FieldWidth → Nat
  | two => 4
  | four => 16
  | eight => 256

def perByte : FieldWidth → Nat
  | two => 4
  | four => 2
  | eight => 1

theorem span_pos (width : FieldWidth) : 0 < width.span := by
  cases width <;> decide

theorem perByte_pos (width : FieldWidth) : 0 < width.perByte := by
  cases width <;> decide

/-! ### One byte -/

/-- What a unit in a slot adds to the byte. -/
def weight (width : FieldWidth) (slot : Nat) : Nat := Nat.pow width.span slot

/-- The field in one slot of a byte; slot `0` is the lowest. -/
def extract (width : FieldWidth) (byte : UInt8) (slot : Nat) : Nat :=
  byte.toNat / width.weight slot % width.span

/-- Puts the low bits of `value` between the higher and the lower fields of a byte. -/
def insert (width : FieldWidth) (byte : UInt8) (slot value : Nat) : UInt8 :=
  let low := width.weight slot
  let high := width.weight (slot + 1)
  UInt8.ofNat (byte.toNat / high * high + value % width.span * low + byte.toNat % low)

theorem extract_lt (width : FieldWidth) (byte : UInt8) (slot : Nat) :
    width.extract byte slot < width.span :=
  Nat.mod_lt _ width.span_pos

/-- A field that was just written reads the low bits of what was written. -/
theorem extract_insert_self (width : FieldWidth) (byte : UInt8) (slot value : Nat)
    (h : slot < width.perByte) :
    width.extract (width.insert byte slot value) slot = value % width.span := by
  have hbyte := byte.toNat_lt
  cases width with
  | two =>
    obtain rfl | rfl | rfl | rfl : slot = 0 ∨ slot = 1 ∨ slot = 2 ∨ slot = 3 := by
      simp only [perByte] at h; omega
    all_goals
      simp [extract, insert, weight, span]
      omega
  | four =>
    obtain rfl | rfl : slot = 0 ∨ slot = 1 := by simp only [perByte] at h; omega
    all_goals
      simp [extract, insert, weight, span]
      omega
  | eight =>
    obtain rfl : slot = 0 := by simp only [perByte] at h; omega
    simp [extract, insert, weight, span]
    omega

/-- Writing a field leaves the other fields of its byte alone. -/
theorem extract_insert_of_ne (width : FieldWidth) (byte : UInt8) (slot other value : Nat)
    (h : slot < width.perByte) (hother : other < width.perByte) (hne : other ≠ slot) :
    width.extract (width.insert byte slot value) other = width.extract byte other := by
  have hbyte := byte.toNat_lt
  cases width with
  | two =>
    obtain rfl | rfl | rfl | rfl : slot = 0 ∨ slot = 1 ∨ slot = 2 ∨ slot = 3 := by
      simp only [perByte] at h; omega
    all_goals
      obtain rfl | rfl | rfl | rfl : other = 0 ∨ other = 1 ∨ other = 2 ∨ other = 3 := by
        simp only [perByte] at hother; omega
    all_goals simp [extract, insert, weight, span] at hne ⊢ <;> omega
  | four =>
    obtain rfl | rfl : slot = 0 ∨ slot = 1 := by simp only [perByte] at h; omega
    all_goals
      obtain rfl | rfl : other = 0 ∨ other = 1 := by simp only [perByte] at hother; omega
    all_goals simp [extract, insert, weight, span] at hne ⊢ <;> omega
  | eight => simp only [perByte] at h hother; omega

/-! ### Arrays of bytes -/

def read? (width : FieldWidth) (bytes : Array UInt8) (position : Nat) : Option Nat :=
  bytes[position / width.perByte]?.map fun byte ↦ width.extract byte (position % width.perByte)

theorem read?_getD_lt (width : FieldWidth) (bytes : Array UInt8) (position : Nat) :
    (width.read? bytes position).getD 0 < width.span := by
  unfold read?
  cases bytes[position / width.perByte]? with
  | none => exact width.span_pos
  | some byte => exact width.extract_lt byte _

/-- Writes a field, or nothing when the position is past the end. -/
def write (width : FieldWidth) (bytes : Array UInt8) (position value : Nat) : Array UInt8 :=
  bytes.modify (position / width.perByte) fun byte ↦
    width.insert byte (position % width.perByte) value

def write? (width : FieldWidth) (bytes : Array UInt8) (position value : Nat) :
    Option (Array UInt8) :=
  if position / width.perByte < bytes.size then some (width.write bytes position value) else none

@[simp]
theorem size_write (width : FieldWidth) (bytes : Array UInt8) (position value : Nat) :
    (width.write bytes position value).size = bytes.size := by
  simp [write]

/-- A written position reads the low bits of the value; every other one reads what it held. -/
theorem read?_write (width : FieldWidth) (bytes : Array UInt8) (position other value : Nat)
    (h : position / width.perByte < bytes.size) :
    width.read? (width.write bytes position value) other =
      if other = position then some (value % width.span) else width.read? bytes other := by
  have hslot (place : Nat) : place % width.perByte < width.perByte :=
    Nat.mod_lt _ width.perByte_pos
  unfold read? write
  rw [Array.getElem?_modify]
  split
  · next hbyte =>
    rw [← hbyte, Array.getElem?_eq_getElem h]
    simp only [Option.map_some]
    split
    · next hsame => rw [hsame, extract_insert_self _ _ _ _ (hslot position)]
    · next hne =>
      have hslots : other % width.perByte ≠ position % width.perByte := fun hmod ↦ by
        apply hne
        rw [← Nat.div_add_mod other width.perByte, ← Nat.div_add_mod position width.perByte,
          hbyte, hmod]
      rw [extract_insert_of_ne _ _ _ _ _ (hslot position) (hslot other) hslots]
  · next hbyte =>
    rw [if_neg fun hsame ↦ hbyte (by rw [hsame])]

end FieldWidth

/-- The number of bytes that `size` numbers of `bits` bits take. -/
def bytesFor (size bits : Nat) : Nat := (size * bits + 7) / 8

/-- As `bytesFor`, where a word counts the bits. -/
def packedLength (size bits : Nat) : Nat := (Word.wrap (size * bits) + 7) / 8

theorem packedLength_of_le {size bits : Nat} (h : size * bits ≤ Word.maxUnsigned) :
    packedLength size bits = bytesFor size bits := by
  rw [packedLength, Word.wrap_of_le h, bytesFor]

/-- A word counts the bits of the fields of `2 ^ 31` positions, and of many more. -/
theorem FieldWidth.mul_bits_le_maxUnsigned (width : FieldWidth) {size : Nat}
    (h : size ≤ 2147483648) : size * width.bits ≤ Word.maxUnsigned := by
  unfold Word.maxUnsigned
  cases width <;> simp only [bits] <;> omega

end Columnar
