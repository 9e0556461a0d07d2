import Columnar.Index.Buffer
import Columnar.Proofs.Outcome

/-!
# Arrays of a chosen size

Up to the limit of its format, a size gives an array of zeros (`ofSize_of_le`). Beyond it a format
with an element per index is refused (`ofSize_of_wide`), and one whose indices share bytes gives a
short array (`exists_ofSize_short`): no storing of indices makes it whole (`of_store_short`), and
some of its positions cannot be read (`ShortArray.exists_unread`).
-/

set_option autoImplicit false
set_option relaxedAutoImplicit false

namespace Columnar

/-! ### Limits -/

namespace IndexFormat

variable {format : IndexFormat} {width : FieldWidth} {size : Nat}

theorem width?_eq_some_iff : format.width? = some width ↔ format = width.format := by
  cases format <;> cases width <;> decide

theorem sizeLimit_format (width : FieldWidth) :
    width.format.sizeLimit = Word.maxUnsigned / width.bits := by
  cases width <;> rfl

theorem roomLimit_format (width : FieldWidth) : width.format.roomLimit = Word.maxUnsigned := by
  cases width <;> rfl

theorem roomLimit_of_wide (h : format.width? = none) : format.roomLimit = format.sizeLimit := by
  cases format <;> first | rfl | contradiction

theorem sizeLimit_le_roomLimit (format : IndexFormat) : format.sizeLimit ≤ format.roomLimit := by
  cases format <;> decide

/-- Within the limit a word counts the bits. -/
theorem le_sizeLimit_iff :
    size ≤ width.format.sizeLimit ↔ size * width.bits ≤ Word.maxUnsigned := by
  rw [sizeLimit_format]
  exact Nat.le_div_iff_mul_le (by cases width <;> decide)

end IndexFormat

/-! ### Short arrays -/

namespace ShortArray

/-- The bytes end before the last position. -/
theorem size_bytes_mul_lt (array : ShortArray) :
    array.bytes.size * array.width.perByte < array.size := by
  obtain ⟨width, size, bytes, hbytes, hwraps⟩ := array
  show bytes.size * width.perByte < size
  rw [hbytes, packedLength]
  unfold Word.wrap Word.span
  unfold Word.maxUnsigned at hwraps
  cases width <;> simp only [FieldWidth.bits, FieldWidth.perByte] at * <;> omega

theorem exists_unread (array : ShortArray) :
    ∃ position < array.size, array.get? position = .error .tooLarge := by
  refine ⟨_, array.size_bytes_mul_lt, ?_⟩
  have hbyte :
      array.bytes[array.bytes.size * array.width.perByte / array.width.perByte]? = none := by
    rw [Nat.mul_div_cancel _ array.width.perByte_pos]
    exact Array.getElem?_size
  rw [get?, if_pos array.size_bytes_mul_lt, FieldWidth.read?, hbyte, Option.map_none]

theorem of_set {array next : ShortArray} {position index : Nat}
    (h : array.set position index = .ok next) :
    next.size = array.size ∧ next.format = array.format := by
  unfold set at h
  split at h
  · contradiction
  · split at h
    · split at h
      · cases h
        exact ⟨rfl, rfl⟩
      · contradiction
    · contradiction

end ShortArray

/-! ### Buffers -/

namespace IndexBuffer

variable {format : IndexFormat} {width : FieldWidth} {size : Nat} {indices : List Nat}

theorem ofSize_format (width : FieldWidth) (size : Nat) :
    ofSize width.format size = Word.requireRoom size Word.maxUnsigned >>= fun _ ↦
      .ok (ofCounted width (Array.replicate (packedLength size width.bits) 0) size
        Array.size_replicate) := by
  cases width <;> rfl

theorem ofSize_of_width?_none (h : format.width? = none) (size : Nat) :
    ofSize format size = Word.requireRoom size format.roomLimit >>= fun _ ↦
      .ok (.whole (.zeros format size)) := by
  rw [ofSize, h]
  rfl

/-- Within the limit every size gives an array of zeros. -/
theorem ofSize_of_le (h : size ≤ format.sizeLimit) :
    ofSize format size = .ok (.whole (.zeros format size)) := by
  have hroom : Word.requireRoom size format.roomLimit = .ok () :=
    Word.requireRoom_eq_ok_iff.mpr (Nat.le_trans h format.sizeLimit_le_roomLimit)
  cases hwidth : format.width? with
  | none => rw [ofSize_of_width?_none hwidth, hroom, Outcome.ok_bind]
  | some width =>
    obtain rfl := IndexFormat.width?_eq_some_iff.mp hwidth
    rw [IndexFormat.roomLimit_format] at hroom
    have hbits := IndexFormat.le_sizeLimit_iff.mp h
    have hlength := packedLength_of_le hbits
    rw [ofSize_format, hroom, Outcome.ok_bind, ofCounted, dif_pos hbits]
    simp only [hlength, IndexArray.zeros, Except.ok.injEq, whole.injEq, IndexArray.mk.injEq,
      true_and]
    cases width with
    | two | four => rfl
    | eight =>
      have height : bytesFor size FieldWidth.eight.bits = size := by
        simp only [bytesFor, FieldWidth.bits]
        omega
      rw [height]
      rfl

/-- Beyond the limit there is no storage with an element per index. -/
theorem ofSize_of_wide (hwide : format.width? = none) (h : format.sizeLimit < size) :
    ofSize format size = .error .tooLarge := by
  rw [ofSize_of_width?_none hwide, IndexFormat.roomLimit_of_wide hwide, Word.requireRoom,
    if_neg (Nat.not_le.mpr h), Outcome.error_bind]

/-- Beyond the limit indices that share bytes get fewer of them. -/
theorem exists_ofSize_short (h : width.format.sizeLimit < size) (hsize : size ≤ Word.maxUnsigned) :
    ∃ array : ShortArray, ofSize width.format size = .ok (.short array) ∧ array.size = size ∧
      array.width = width := by
  have hbits := mt IndexFormat.le_sizeLimit_iff.mpr (Nat.not_le.mpr h)
  rw [ofSize_format, Word.requireRoom_eq_ok_iff.mpr hsize, Outcome.ok_bind, ofCounted,
    dif_neg hbits]
  exact ⟨_, rfl, rfl, rfl⟩

/-- An array can be made of zeros exactly within the limit. -/
theorem whole?_ofSize (format : IndexFormat) (size : Nat) :
    (ofSize format size >>= whole?) =
      if size ≤ format.sizeLimit then .ok (.zeros format size) else .error .tooLarge := by
  by_cases h : size ≤ format.sizeLimit
  · rw [ofSize_of_le h, if_pos h]
    rfl
  · rw [if_neg h]
    cases hwidth : format.width? with
    | none => rw [ofSize_of_wide hwidth (Nat.lt_of_not_le h), Outcome.error_bind]
    | some width =>
      obtain rfl := IndexFormat.width?_eq_some_iff.mp hwidth
      by_cases hsize : size ≤ Word.maxUnsigned
      · obtain ⟨array, harray, -, -⟩ := exists_ofSize_short (Nat.lt_of_not_le h) hsize
        rw [harray]
        rfl
      · rw [ofSize_format, Word.requireRoom, if_neg hsize]
        rfl

/-! ### Storing -/

theorem set_whole (array : IndexArray) (position index : Nat) :
    (whole array).set position index =
      array.set position index >>= fun next ↦ .ok (.whole next) := rfl

/-- An array stores indices as it does alone. -/
theorem store_whole (array : IndexArray) (indices : List Nat) :
    (whole array).store indices = array.store indices >>= fun stored ↦ .ok (.whole stored) := by
  unfold store IndexArray.store
  induction indices.zipIdx generalizing array with
  | nil => rfl
  | cons entry rest ih =>
    obtain ⟨index, position⟩ := entry
    simp only [List.foldlM_cons, set_whole]
    cases array.set position index with
    | error fault => rfl
    | ok next => exact ih next

/-- A short array stays short. -/
theorem of_store_short {array : ShortArray} {buffer : IndexBuffer}
    (h : (short array).store indices = .ok buffer) :
    ∃ stored : ShortArray, buffer = .short stored ∧ stored.size = array.size ∧
      stored.format = array.format := by
  refine Outcome.of_foldlM (fun buffer ↦ ∃ stored : ShortArray, buffer = .short stored ∧
    stored.size = array.size ∧ stored.format = array.format) ?_ h ⟨array, rfl, rfl, rfl⟩
  rintro _ entry next ⟨stored, rfl, hsize, hformat⟩ hnext
  obtain ⟨stepped, hset, hstepped⟩ := Outcome.bind_eq_ok_iff.mp hnext
  cases hstepped
  obtain ⟨hsize', hformat'⟩ := ShortArray.of_set hset
  exact ⟨stepped, rfl, hsize'.trans hsize, hformat'.trans hformat⟩

theorem collect_of_le (h : size ≤ format.sizeLimit) (indices : List Nat) :
    collect format size indices =
      (IndexArray.zeros format size).store indices >>= fun array ↦ .ok (.whole array) := by
  rw [collect, ofSize_of_le h, Outcome.ok_bind, store_whole]

end IndexBuffer

end Columnar
