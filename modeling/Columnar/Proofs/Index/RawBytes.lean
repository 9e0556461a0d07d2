import Mathlib.Data.Nat.Digits.Defs
import Columnar.Index.Buffer
import Columnar.Proofs.Index.Storing

/-!
# Raw bytes

Read as one number, lowest bits first, bytes have the field of every position as a digit
(`read?_eq_field`). Numbers with the same digits at the first positions are the same below that
power of the base (`mod_pow_eq_iff`), so what an array of raw bytes reads depends on the number
before the end of the last field, and not on the padding after it. Writing the fields that are read
into zeroed bytes gives the number back without the padding (`numberOf_pack`), and writing any
values into zeroed bytes and reading them gives their low bits back (`packsBack`).
-/

set_option autoImplicit false
set_option relaxedAutoImplicit false

namespace Columnar

/-! ### Digits -/

section Digits

variable {base number first second position count : Nat}

/-- A digit below a power of the base can be read from the rest of that power. -/
theorem div_pow_mod_of_lt (number base : Nat) (h : position < count) :
    number % base ^ count / base ^ position % base = number / base ^ position % base := by
  have hsplit : base ^ count = base ^ position * base ^ (count - position) := by
    rw [← Nat.pow_add, Nat.add_sub_cancel' (Nat.le_of_lt h)]
  have hdvd : base ∣ base ^ (count - position) := dvd_pow_self base (Nat.sub_ne_zero_of_lt h)
  rw [hsplit, Nat.mod_mul_right_div_self, Nat.mod_mod_of_dvd _ hdvd]

/-- Numbers are the same below a power of the base exactly if their digits are. -/
theorem mod_pow_eq_iff : first % base ^ count = second % base ^ count ↔
    ∀ position < count, first / base ^ position % base = second / base ^ position % base := by
  constructor
  · intro h position hposition
    rw [← div_pow_mod_of_lt first base hposition, h, div_pow_mod_of_lt second base hposition]
  · intro h
    induction count with
    | zero => rw [Nat.pow_zero, Nat.mod_one, Nat.mod_one]
    | succ count ih =>
      rw [Nat.mod_pow_succ, Nat.mod_pow_succ, h count (Nat.lt_succ_self count),
        ih fun position hposition ↦ h position (Nat.lt_succ_of_lt hposition)]

end Digits

/-- The bytes as one number; the first byte has its lowest bits. -/
def numberOf (bytes : Array UInt8) : Nat := Nat.ofDigits 256 (bytes.toList.map UInt8.toNat)

section Numbers

variable {bytes : Array UInt8}

theorem lt_of_mem_map_toNat (bytes : List UInt8) :
    ∀ digit ∈ bytes.map UInt8.toNat, digit < 256 := by
  intro digit hdigit
  obtain ⟨byte, -, rfl⟩ := List.mem_map.mp hdigit
  exact byte.toNat_lt

theorem numberOf_lt (bytes : Array UInt8) : numberOf bytes < 256 ^ bytes.size := by
  have hlt := Nat.ofDigits_lt_base_pow_length (by decide) (lt_of_mem_map_toNat bytes.toList)
  rwa [List.length_map, Array.length_toList] at hlt

/-- Bytes of one length are told apart by their numbers. -/
theorem numberOf_injective {first second : Array UInt8} (hsize : first.size = second.size)
    (h : numberOf first = numberOf second) : first = second := by
  have hdigits := Nat.ofDigits_inj_of_len_eq (by decide) (by simpa using hsize)
    (lt_of_mem_map_toNat first.toList) (lt_of_mem_map_toNat second.toList) h
  exact Array.toList_inj.mp ((List.map_inj_right fun _ _ ↦ UInt8.toNat_inj.mp).mp hdigits)

theorem numberOf_div_mod {place : Nat} (h : place < bytes.size) :
    numberOf bytes / 256 ^ place % 256 = bytes[place].toNat := by
  have hdrop := Nat.ofDigits_div_pow_eq_ofDigits_drop place (by decide : 0 < 256)
    (bytes.toList.map UInt8.toNat) (lt_of_mem_map_toNat bytes.toList)
  have hbyte := bytes[place].toNat_lt
  unfold numberOf
  rw [hdrop, ← List.map_drop, List.drop_eq_getElem_cons (by simpa using h), List.map_cons,
    Nat.ofDigits_cons, Nat.add_mul_mod_self_left, Array.getElem_toList, Nat.mod_eq_of_lt hbyte]

end Numbers

namespace FieldWidth

variable {width : FieldWidth} {bytes : Array UInt8} {position : Nat}

theorem span_eq (width : FieldWidth) : width.span = 2 ^ width.bits := by cases width <;> rfl

theorem span_pow_perByte (width : FieldWidth) : width.span ^ width.perByte = 256 := by
  cases width <;> rfl

theorem span_pow_eq (width : FieldWidth) (count : Nat) :
    width.span ^ count = 2 ^ (count * width.bits) := by
  rw [span_eq, ← Nat.pow_mul, Nat.mul_comm]

/-- The bits of a position: as many as the width has, after those of the positions before. -/
def field (width : FieldWidth) (bytes : Array UInt8) (position : Nat) : Nat :=
  numberOf bytes / 2 ^ (position * width.bits) % 2 ^ width.bits

theorem field_eq (width : FieldWidth) (bytes : Array UInt8) (position : Nat) :
    width.field bytes position = numberOf bytes / width.span ^ position % width.span := by
  rw [field, span_pow_eq, span_eq]

/-- Every position within the bytes reads its bits. -/
theorem read?_eq_field (h : position < bytes.size * width.perByte) :
    width.read? bytes position = some (width.field bytes position) := by
  have hplace : position / width.perByte < bytes.size :=
    Nat.div_lt_of_lt_mul (Nat.mul_comm _ _ ▸ h)
  have hslot : position % width.perByte < width.perByte := Nat.mod_lt _ width.perByte_pos
  have hbyte : width.extract bytes[position / width.perByte] (position % width.perByte) =
      width.field bytes position := by
    calc width.extract bytes[position / width.perByte] (position % width.perByte)
        = numberOf bytes / 256 ^ (position / width.perByte) % 256 /
            width.span ^ (position % width.perByte) % width.span := by
          rw [numberOf_div_mod hplace]
          rfl
      _ = numberOf bytes / 256 ^ (position / width.perByte) /
            width.span ^ (position % width.perByte) % width.span := by
          rw [← width.span_pow_perByte, div_pow_mod_of_lt _ _ hslot]
      _ = width.field bytes position := by
          rw [← width.span_pow_perByte, ← Nat.pow_mul, Nat.div_div_eq_div_mul, ← Nat.pow_add,
            Nat.div_add_mod, field_eq]
  rw [read?, Array.getElem?_eq_getElem hplace, Option.map_some, hbyte]

/-- Bytes whose fields are `0` from some position on have nothing but the fields before it. -/
theorem numberOf_eq_mod {count : Nat} (hcount : count ≤ bytes.size * width.perByte)
    (hzero : ∀ position, count ≤ position → position < bytes.size * width.perByte →
      width.field bytes position = 0) :
    numberOf bytes = numberOf bytes % width.span ^ count := by
  have hbound : 256 ^ bytes.size = width.span ^ (bytes.size * width.perByte) := by
    rw [← width.span_pow_perByte, ← Nat.pow_mul, Nat.mul_comm]
  have hmod : numberOf bytes % width.span ^ (bytes.size * width.perByte) =
      numberOf bytes % width.span ^ count % width.span ^ (bytes.size * width.perByte) := by
    refine mod_pow_eq_iff.mpr fun position hposition ↦ ?_
    by_cases hlt : position < count
    · rw [div_pow_mod_of_lt _ _ hlt]
    · have hle := Nat.not_lt.mp hlt
      have hsmall : numberOf bytes % width.span ^ count < width.span ^ position :=
        Nat.lt_of_lt_of_le (Nat.mod_lt _ (Nat.pow_pos width.span_pos))
          (Nat.pow_le_pow_right width.span_pos hle)
      rw [← field_eq, hzero position hle hposition, Nat.div_eq_of_lt hsmall, Nat.zero_mod]
  have hsmall : numberOf bytes % width.span ^ count < width.span ^ (bytes.size * width.perByte) :=
    Nat.lt_of_lt_of_le (Nat.mod_lt _ (Nat.pow_pos width.span_pos))
      (Nat.pow_le_pow_right width.span_pos hcount)
  rwa [Nat.mod_eq_of_lt (hbound ▸ numberOf_lt bytes), Nat.mod_eq_of_lt hsmall] at hmod

/-! ### Packing -/

/-- Writes the values in order from a position on; nothing when one is past the end. -/
def packFrom (width : FieldWidth) (bytes : Array UInt8) (position : Nat) (values : List Nat) :
    Option (Array UInt8) :=
  (values.zipIdx position).foldlM (fun bytes (value, place) ↦ width.write? bytes place value) bytes

/-- Writes the values in order into zeroed bytes. -/
def pack (width : FieldWidth) (length : Nat) (values : List Nat) : Option (Array UInt8) :=
  width.packFrom (Array.replicate length 0) 0 values

theorem packFrom_cons (width : FieldWidth) (bytes : Array UInt8) (position value : Nat)
    (values : List Nat) : width.packFrom bytes position (value :: values) =
      (width.write? bytes position value).bind (width.packFrom · (position + 1) values) := rfl

/-- The positions written read the low bits of their values, the others what they read before. -/
theorem exists_packFrom {values : List Nat}
    (hroom : position + values.length ≤ bytes.size * width.perByte) :
    ∃ packed, width.packFrom bytes position values = some packed ∧ packed.size = bytes.size ∧
      (∀ (place value : Nat), values[place]? = some value →
        width.read? packed (position + place) = some (value % width.span)) ∧
      ∀ other, other < position ∨ position + values.length ≤ other →
        width.read? packed other = width.read? bytes other := by
  induction values generalizing bytes position with
  | nil => exact ⟨bytes, rfl, rfl, nofun, fun _ _ ↦ rfl⟩
  | cons value values ih =>
    rw [List.length_cons] at hroom
    have hplace : position / width.perByte < bytes.size :=
      Nat.div_lt_of_lt_mul (by rw [Nat.mul_comm]; omega)
    have hwritten (other : Nat) := width.read?_write bytes position other value hplace
    obtain ⟨packed, hpacked, hsize, hinside, houtside⟩ :=
      @ih (width.write bytes position value) (position + 1) (by rw [size_write]; omega)
    refine ⟨packed, ?_, hsize.trans (width.size_write bytes position value), ?_, ?_⟩
    · rw [packFrom_cons, write?, if_pos hplace]
      exact hpacked
    · intro place other hother
      cases place with
      | zero =>
        cases hother
        rw [Nat.add_zero, houtside _ (.inl (Nat.lt_succ_self position)), hwritten, if_pos rfl]
      | succ place =>
        rw [← hinside place other hother, Nat.add_right_comm, Nat.add_assoc]
    · intro other hother
      rw [List.length_cons] at hother
      have hne : other ≠ position := by omega
      rw [houtside other (by omega), hwritten, if_neg hne]

/-- Values that have room are packed: every field holds the low bits of its value, the rest is
`0`. -/
theorem exists_pack {length : Nat} {values : List Nat}
    (hroom : values.length ≤ length * width.perByte) :
    ∃ packed, width.pack length values = some packed ∧ packed.size = length ∧
      ∀ position < length * width.perByte,
        width.field packed position = values[position]?.getD 0 % width.span := by
  have hzeros : (Array.replicate length (0 : UInt8)).size = length := Array.size_replicate
  obtain ⟨packed, hpacked, hsize, hinside, houtside⟩ :=
    @exists_packFrom width (Array.replicate length 0) 0 values (by rw [hzeros]; omega)
  rw [hzeros] at hsize
  refine ⟨packed, hpacked, hsize, fun position hposition ↦ ?_⟩
  have hfield := read?_eq_field (hsize.symm ▸ hposition : position < packed.size * width.perByte)
  cases hvalue : values[position]? with
  | some value =>
    have hread := hinside position value hvalue
    rw [Nat.zero_add, hfield] at hread
    exact Option.some.inj hread
  | none =>
    have hread := houtside position (.inr (by simpa using List.getElem?_eq_none_iff.mp hvalue))
    have hbyte : position / width.perByte < length :=
      Nat.div_lt_of_lt_mul (Nat.mul_comm _ _ ▸ hposition)
    rw [hfield, read?, Array.getElem?_replicate, if_pos hbyte] at hread
    simpa [extract] using hread

/-- Packing what is read from the first positions gives their bits back. -/
theorem numberOf_pack {count : Nat} {packed : Array UInt8}
    (hcount : count ≤ packed.size * width.perByte)
    (hfields : ∀ position < packed.size * width.perByte, width.field packed position =
      if position < count then width.field bytes position else 0) :
    numberOf packed = numberOf bytes % 2 ^ (count * width.bits) := by
  have hzero := numberOf_eq_mod hcount fun position hle hposition ↦ by
    rw [hfields position hposition, if_neg (Nat.not_lt.mpr hle)]
  rw [hzero, ← span_pow_eq]
  refine mod_pow_eq_iff.mpr fun position hposition ↦ ?_
  rw [← field_eq, ← field_eq, hfields position (Nat.lt_of_lt_of_le hposition hcount),
    if_pos hposition]

end FieldWidth

namespace IndexArray

/-! ### Reading alike -/

/-- No reader tells the arrays apart, and the same arrays derive from them. -/
structure ReadsAlike (first second : IndexArray) : Prop where
  get?_eq : ∀ position, first.get? position = second.get? position
  toList_eq : first.toList = second.toList
  maxIndex_eq : first.maxIndex = second.maxIndex
  gather_eq : ∀ mapping, first.gather mapping = second.gather mapping
  renumber_eq : ∀ table format, first.renumber table format = second.renumber table format

/-- Format and indices are all that is read. -/
theorem readsAlike_of_toList {first second : IndexArray} (hformat : first.format = second.format)
    (hall : first.toList = second.toList) : first.ReadsAlike second := by
  have hsize : first.size = second.size := by
    rw [← length_toList, hall, length_toList]
  have hget (position : Nat) : first.get? position = second.get? position := by
    rw [← getElem?_toList, hall, getElem?_toList]
  have hcell {position : Nat} (hposition : position < first.size) :
      first.cells.get position = second.cells.get position := by
    have hsame := hget position
    rw [get?, get?, if_pos hposition, if_pos (hsize ▸ hposition)] at hsame
    exact Option.some.inj hsame
  refine ⟨hget, hall, congrArg (List.foldl max 0) hall, fun mapping ↦ ?_, fun table format ↦ ?_⟩
  · simp only [gather, IndexArray.mk.injEq, true_and, hformat, ← hsize]
    congr 1
    funext row
    cases hshown : mapping.resolve? row first.size with
    | none => rfl
    | some shown =>
      cases shown with
      | none => rfl
      | some source =>
        obtain ⟨entry, -, hentry⟩ := Option.map_eq_some_iff.mp hshown
        exact hcell (Mapping.target?_eq_some_iff.mp hentry).2
  · unfold renumber
    rw [← hsize]
    refine Outcome.foldlM_congr (fun result position hposition ↦ ?_) _
    rw [hcell (List.mem_range.mp hposition)]

/-! ### Wrapping -/

/-- What comes of wrapping raw bytes. Bytes are the same up to their padding when their numbers are
the same below the last field. -/
structure RawLaw (width : FieldWidth) (wrap : Array UInt8 → Nat → Outcome IndexBuffer)
    (bytes : Array UInt8) (size : Nat) : Prop where
  accepted_iff : (∃ array, wrap bytes size = .ok (.whole array)) ↔
    bytes.size = (size * width.bits + 7) / 8
  refused : bytes.size ≠ (size * width.bits + 7) / 8 →
    ∃ reason, wrap bytes size = .error (.invalidArgument "bytes" reason)
  get?_eq : ∀ array, wrap bytes size = .ok (.whole array) → ∀ position < size,
    array.get? position = some (width.field bytes position)
  toList_eq : ∀ array, wrap bytes size = .ok (.whole array) →
    array.toList = (List.range size).map (width.field bytes)
  padding : ∀ other array alike, wrap bytes size = .ok (.whole array) →
    wrap other size = .ok (.whole alike) →
    numberOf bytes % 2 ^ (size * width.bits) = numberOf other % 2 ^ (size * width.bits) →
      array.ReadsAlike alike
  /-- Writing what is read into zeroed bytes clears the padding. -/
  repacked : ∀ array, wrap bytes size = .ok (.whole array) →
    ∃ packed, width.pack bytes.size array.toList = some packed ∧ packed.size = bytes.size ∧
      numberOf packed = numberOf bytes % 2 ^ (size * width.bits)

/-- What comes of writing values into zeroed bytes and wrapping these: the low bits of the values,
with clear padding. -/
structure PacksBack (width : FieldWidth) (wrap : Array UInt8 → Nat → Outcome IndexBuffer)
    (values : List Nat) (packed : Array UInt8) (array : IndexArray) : Prop where
  packed_eq : width.pack ((values.length * width.bits + 7) / 8) values = some packed
  wrapped_eq : wrap packed values.length = .ok (.whole array)
  number_lt : numberOf packed < 2 ^ (values.length * width.bits)
  low_bits : array.toList = values.map (· % 2 ^ width.bits)
  toList_eq : (∀ value ∈ values, value < 2 ^ width.bits) → array.toList = values

section Laws

variable {width : FieldWidth} {bytes : Array UInt8} {size : Nat} {array : IndexArray}

/-- The fields have room in the bytes. -/
theorem le_bytesFor_mul (width : FieldWidth) (size : Nat) :
    size ≤ bytesFor size width.bits * width.perByte := by
  unfold bytesFor
  cases width <;> simp only [FieldWidth.bits, FieldWidth.perByte] <;> omega

/-- Bytes of the right length are wrapped as they are. -/
theorem ofFields_of_eq (hsize : size ≤ rowLimit) (hlength : bytes.size = bytesFor size width.bits) :
    IndexBuffer.ofFields width bytes size =
      .ok (.whole ⟨size, .ofBytes width bytes, IndexCells.fits_ofBytes hlength⟩) := by
  have hbits := width.mul_bits_le_maxUnsigned (Nat.le_succ_of_le hsize)
  rw [IndexBuffer.ofFields, dif_pos (hlength.trans (packedLength_of_le hbits).symm),
    IndexBuffer.ofCounted, dif_pos hbits]

theorem ofFields_of_ne (hsize : size ≤ rowLimit) (hlength : bytes.size ≠ bytesFor size width.bits) :
    ∃ reason, IndexBuffer.ofFields width bytes size = .error (.invalidArgument "bytes" reason) := by
  rw [← packedLength_of_le (width.mul_bits_le_maxUnsigned (Nat.le_succ_of_le hsize))] at hlength
  rw [IndexBuffer.ofFields, dif_neg hlength]
  exact ⟨_, rfl⟩

/-- An array that wraps bytes is made of them, and they have its length. -/
theorem of_ofFields (h : IndexBuffer.ofFields width bytes size = .ok (.whole array)) :
    array.size = size ∧ array.cells = .ofBytes width bytes ∧
      bytes.size = bytesFor size width.bits := by
  unfold IndexBuffer.ofFields at h
  split at h
  · next hlength =>
    unfold IndexBuffer.ofCounted at h
    split at h
    · next hbits =>
      cases h
      exact ⟨rfl, rfl, hlength.trans (packedLength_of_le hbits)⟩
    · cases h
  · cases h

theorem format_of_ofFields (h : IndexBuffer.ofFields width bytes size = .ok (.whole array)) :
    array.format = width.format := by
  rw [IndexArray.format, (of_ofFields h).2.1]
  cases width <;> rfl

theorem get?_of_ofFields (h : IndexBuffer.ofFields width bytes size = .ok (.whole array))
    {position : Nat} (hposition : position < size) :
    array.get? position = some (width.field bytes position) := by
  obtain ⟨rfl, hcells, hlength⟩ := of_ofFields h
  have hroom : position < bytes.size * width.perByte := by
    rw [hlength]
    exact Nat.lt_of_lt_of_le hposition (le_bytesFor_mul width array.size)
  have hget : array.cells.get position = (width.read? bytes position).getD 0 := by
    rw [hcells]
    cases width <;> rfl
  rw [IndexArray.get?, if_pos hposition, hget, FieldWidth.read?_eq_field hroom, Option.getD_some]

theorem toList_of_ofFields (h : IndexBuffer.ofFields width bytes size = .ok (.whole array)) :
    array.toList = (List.range size).map (width.field bytes) := by
  have hlength : array.size = size := (of_ofFields h).1
  refine List.ext_getElem? fun position ↦ ?_
  rw [getElem?_toList, List.getElem?_map]
  by_cases hposition : position < size
  · rw [get?_of_ofFields h hposition, List.getElem?_range hposition, Option.map_some]
  · rw [get?, hlength, if_neg hposition,
      List.getElem?_eq_none (by simpa using Nat.not_lt.mp hposition), Option.map_none]

/-- Bytes that differ in their padding only read alike. -/
theorem readsAlike_of_ofFields {other : Array UInt8} {alike : IndexArray}
    (h : IndexBuffer.ofFields width bytes size = .ok (.whole array))
    (hother : IndexBuffer.ofFields width other size = .ok (.whole alike))
    (hnumber : numberOf bytes % 2 ^ (size * width.bits) =
      numberOf other % 2 ^ (size * width.bits)) : array.ReadsAlike alike := by
  rw [← FieldWidth.span_pow_eq] at hnumber
  refine readsAlike_of_toList ((format_of_ofFields h).trans (format_of_ofFields hother).symm) ?_
  rw [toList_of_ofFields h, toList_of_ofFields hother]
  refine List.map_congr_left fun position hposition ↦ ?_
  rw [FieldWidth.field_eq, FieldWidth.field_eq]
  exact mod_pow_eq_iff.mp hnumber position (List.mem_range.mp hposition)

theorem exists_repacked (h : IndexBuffer.ofFields width bytes size = .ok (.whole array)) :
    ∃ packed, width.pack bytes.size array.toList = some packed ∧ packed.size = bytes.size ∧
      numberOf packed = numberOf bytes % 2 ^ (size * width.bits) := by
  have hroom : size ≤ bytes.size * width.perByte :=
    (of_ofFields h).2.2 ▸ le_bytesFor_mul width size
  have hall := toList_of_ofFields h
  obtain ⟨packed, hpacked, hpackedSize, hfields⟩ :=
    @FieldWidth.exists_pack width bytes.size array.toList (by simpa [hall] using hroom)
  refine ⟨packed, hpacked, hpackedSize, FieldWidth.numberOf_pack (hpackedSize ▸ hroom) ?_⟩
  intro position hposition
  rw [hfields position (hpackedSize ▸ hposition), hall, List.getElem?_map]
  by_cases hlt : position < size
  · rw [List.getElem?_range hlt, if_pos hlt, Option.map_some, Option.getD_some,
      FieldWidth.field_eq, Nat.mod_mod]
  · rw [List.getElem?_eq_none (by simpa using Nat.not_lt.mp hlt), if_neg hlt, Option.map_none,
      Option.getD_none, Nat.zero_mod]

theorem rawLaw (width : FieldWidth) (bytes : Array UInt8) (hsize : size ≤ rowLimit) :
    RawLaw width (IndexBuffer.ofFields width) bytes size where
  accepted_iff := ⟨fun ⟨_, h⟩ ↦ (of_ofFields h).2.2, fun h ↦ ⟨_, ofFields_of_eq hsize h⟩⟩
  refused := ofFields_of_ne hsize
  get?_eq _ h _ := get?_of_ofFields h
  toList_eq _ := toList_of_ofFields
  padding _ _ _ := readsAlike_of_ofFields
  repacked _ := exists_repacked

theorem packsBack (width : FieldWidth) {values : List Nat} (hlength : values.length ≤ rowLimit) :
    ∃ packed array, PacksBack width (IndexBuffer.ofFields width) values packed array := by
  have hroom := le_bytesFor_mul width values.length
  obtain ⟨packed, hpacked, hsize, hfields⟩ := FieldWidth.exists_pack hroom
  obtain ⟨array, harray⟩ : ∃ array, IndexBuffer.ofFields width packed values.length =
    .ok (.whole array) := ⟨_, ofFields_of_eq hlength hsize⟩
  have hlow : array.toList = values.map (· % 2 ^ width.bits) := by
    rw [toList_of_ofFields harray]
    refine List.ext_getElem (by simp) fun position hposition _ ↦ ?_
    have hlt : position < values.length := by simpa using hposition
    rw [List.getElem_map, List.getElem_map, List.getElem_range,
      hfields position (Nat.lt_of_lt_of_le hlt hroom), List.getElem?_eq_getElem hlt,
      Option.getD_some, FieldWidth.span_eq]
  refine ⟨packed, array, hpacked, harray, ?_, hlow, fun hvalues ↦ ?_⟩
  · have hzero := FieldWidth.numberOf_eq_mod (hsize ▸ hroom) fun position hle hposition ↦ by
      rw [hfields position (hsize ▸ hposition), List.getElem?_eq_none hle, Option.getD_none,
        Nat.zero_mod]
    rw [hzero, ← FieldWidth.span_pow_eq]
    exact Nat.mod_lt _ (Nat.pow_pos width.span_pos)
  · rw [hlow]
    exact (List.map_congr_left fun value hvalue ↦ Nat.mod_eq_of_lt (hvalues value hvalue)).trans
      (List.map_id' values)

end Laws

/-- Raw bytes of two and of four bits an index read the bits of each position, whatever is in the
padding of the last byte. What is read can be written back, up to the padding, and what was written
is read. -/
theorem raw_bytes_recode :
    (∀ (bytes : Array UInt8) (size : Nat), size ≤ rowLimit →
      RawLaw .two IndexBuffer.ofBytes2 bytes size ∧
        RawLaw .four IndexBuffer.ofBytes4 bytes size) ∧
    ∀ values : List Nat, values.length ≤ rowLimit →
      (∃ packed array, PacksBack .two IndexBuffer.ofBytes2 values packed array) ∧
        ∃ packed array, PacksBack .four IndexBuffer.ofBytes4 values packed array :=
  ⟨fun bytes _ hsize ↦ ⟨rawLaw .two bytes hsize, rawLaw .four bytes hsize⟩,
    fun _ hlength ↦ ⟨packsBack .two hlength, packsBack .four hlength⟩⟩

/-- Five indices in two bytes, the second with six bits of padding that are set; and three indices
that are written and wrapped. -/
theorem raw_bytes_recode_dirty :
    (∃ array, IndexBuffer.ofBytes2 #[0xE4, 0xFD] 5 = .ok (.whole array) ∧
      array.toList = [0, 1, 2, 3, 1] ∧
      FieldWidth.two.pack 2 array.toList = some #[0xE4, 0x01]) ∧
    ∃ packed array, FieldWidth.four.pack 2 [9, 0, 15] = some packed ∧
      IndexBuffer.ofBytes4 packed 3 = .ok (.whole array) ∧ array.toList = [9, 0, 15] := by
  constructor
  · have hlaw := (raw_bytes_recode.1 #[0xE4, 0xFD] 5 (by decide)).1
    obtain ⟨array, harray⟩ := hlaw.accepted_iff.mpr rfl
    obtain ⟨packed, hpacked, hsize, hnumber⟩ := hlaw.repacked array harray
    have hcleared : packed = #[0xE4, 0x01] := numberOf_injective hsize (hnumber.trans (by decide))
    exact ⟨array, harray, (hlaw.toList_eq array harray).trans (by decide), hcleared ▸ hpacked⟩
  · obtain ⟨packed, array, hlaw⟩ := (raw_bytes_recode.2 [9, 0, 15] (by decide)).2
    exact ⟨packed, array, hlaw.packed_eq, hlaw.wrapped_eq, hlaw.toList_eq (by decide)⟩

end IndexArray

end Columnar
