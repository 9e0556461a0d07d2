import Columnar.Proofs.Index.RawBytes

/-!
# Bytes as arrays of cells

Bytes have one cell for every field of a width (`cells`). Writing a field sets its cell and no other
one (`cells_write`), and bytes of one length are told apart by their cells (`cells_injective`). So
any writes come to the same as setting places of a list: `cells_of_writeAll` carries this from one
write to all of them. What is read in the end is the low bits of what was written last, or the field
that was there before, and writes can be exchanged and dropped wherever the list does not notice
(`writeAll?_congr`, `actsAsCells`).
-/

set_option autoImplicit false
set_option relaxedAutoImplicit false

namespace Columnar.FieldWidth

/-- The fields of the bytes, in order. -/
def cells (width : FieldWidth) (bytes : Array UInt8) : List Nat :=
  (List.range (bytes.size * width.perByte)).map (width.field bytes)

/-- Writes a value to each of the positions, one after the other; nothing when one is past the
end. -/
def writeAll? (width : FieldWidth) (bytes : Array UInt8) (writes : List (Nat × Nat)) :
    Option (Array UInt8) :=
  writes.foldlM (fun bytes (position, value) ↦ width.write? bytes position value) bytes

/-- Sets the places of a list to the values, reduced below a bound. -/
def setAll (bound : Nat) (cells : List Nat) (writes : List (Nat × Nat)) : List Nat :=
  writes.foldl (fun cells (position, value) ↦ cells.set position (value % bound)) cells

/-- The value that was written last to a position. -/
def lastWritten? (writes : List (Nat × Nat)) (position : Nat) : Option Nat :=
  writes.reverse.lookup position

/-- What comes of writing to bytes: they behave as an array with a cell for every field. Positions
and values are arbitrary, and a position is inside when it can be read. -/
structure ActsAsCells (width : FieldWidth) (bytes : Array UInt8) (writes : List (Nat × Nat)) :
    Prop where
  written_iff : (width.writeAll? bytes writes).isSome ↔
    ∀ write ∈ writes, (width.read? bytes write.1).isSome
  size_eq : ∀ written, width.writeAll? bytes writes = some written → written.size = bytes.size
  read_eq : ∀ written, width.writeAll? bytes writes = some written →
    ∀ position, (width.read? bytes position).isSome →
      width.read? written position = some
        (match lastWritten? writes position with
          | some value => value % 2 ^ width.bits
          | none => width.field bytes position)
  commutes : ∀ (first second value other : Nat), first ≠ second →
    width.writeAll? bytes (writes ++ [(first, value), (second, other)]) =
      width.writeAll? bytes (writes ++ [(second, other), (first, value)])
  last_wins : ∀ position value other : Nat,
    width.writeAll? bytes (writes ++ [(position, value), (position, other)]) =
      width.writeAll? bytes (writes ++ [(position, other)])
  /-- Where a position is inside, the bytes up to its field are there. -/
  inside_iff : ∀ position < 2 ^ 31, (width.read? bytes position).isSome ↔
    packedLength (position + 1) width.bits ≤ bytes.size

variable {width : FieldWidth} {bytes : Array UInt8} {writes : List (Nat × Nat)}
  {position value : Nat}

/-! ### Cells -/

@[simp]
theorem length_cells (width : FieldWidth) (bytes : Array UInt8) :
    (width.cells bytes).length = bytes.size * width.perByte := by
  rw [cells, List.length_map, List.length_range]

theorem div_perByte_lt_iff :
    position / width.perByte < bytes.size ↔ position < bytes.size * width.perByte :=
  Nat.div_lt_iff_lt_mul width.perByte_pos

/-- Reading bytes is reading their cells. -/
theorem read?_eq_getElem? (width : FieldWidth) (bytes : Array UInt8) (position : Nat) :
    width.read? bytes position = (width.cells bytes)[position]? := by
  rw [cells, List.getElem?_map]
  by_cases hposition : position < bytes.size * width.perByte
  · rw [read?_eq_field hposition, List.getElem?_range hposition, Option.map_some]
  · have hplace : bytes.size ≤ position / width.perByte :=
      Nat.not_lt.mp fun h ↦ hposition (div_perByte_lt_iff.mp h)
    rw [List.getElem?_eq_none (by simpa using hposition), read?, Array.getElem?_eq_none hplace,
      Option.map_none, Option.map_none]

theorem isSome_read?_iff :
    (width.read? bytes position).isSome ↔ position < bytes.size * width.perByte := by
  rw [read?_eq_getElem?, ← length_cells]
  simp only [isSome_getElem?]

/-- Writing a field sets its cell. -/
theorem cells_write (hposition : position < bytes.size * width.perByte) (value : Nat) :
    width.cells (width.write bytes position value) =
      (width.cells bytes).set position (value % 2 ^ width.bits) := by
  refine List.ext_getElem? fun other ↦ ?_
  rw [← read?_eq_getElem?, read?_write _ _ _ _ _ (div_perByte_lt_iff.mpr hposition),
    List.getElem?_set, ← read?_eq_getElem?, length_cells, ← span_eq]
  grind

/-- Bytes of one length are told apart by their cells. -/
theorem cells_injective {first second : Array UInt8} (hsize : first.size = second.size)
    (h : width.cells first = width.cells second) : first = second := by
  have hwhole (bytes : Array UInt8) := @numberOf_eq_mod width bytes _ (Nat.le_refl _)
    fun position hle hlt ↦ absurd hlt (Nat.not_lt.mpr hle)
  apply numberOf_injective hsize
  rw [hwhole first, hwhole second, hsize]
  refine mod_pow_eq_iff.mpr fun position hposition ↦ ?_
  have hfield := congrArg (fun cells ↦ cells[position]?) h
  simp only [← read?_eq_getElem?] at hfield
  rw [read?_eq_field hposition, read?_eq_field (hsize ▸ hposition)] at hfield
  rw [← field_eq, ← field_eq, Option.some.inj hfield]

/-! ### Writing many fields -/

theorem writeAll?_cons (width : FieldWidth) (bytes : Array UInt8) (position value : Nat)
    (writes : List (Nat × Nat)) :
    width.writeAll? bytes ((position, value) :: writes) =
      (width.write? bytes position value).bind (width.writeAll? · writes) := rfl

theorem writeAll?_append (width : FieldWidth) (bytes : Array UInt8)
    (first second : List (Nat × Nat)) :
    width.writeAll? bytes (first ++ second) =
      (width.writeAll? bytes first).bind (width.writeAll? · second) :=
  List.foldlM_append

/-- Writes inside the bytes are all made, and set the cells one after the other. -/
theorem cells_of_writeAll (hinside : ∀ write ∈ writes, write.1 < bytes.size * width.perByte) :
    ∃ written, width.writeAll? bytes writes = some written ∧ written.size = bytes.size ∧
      width.cells written = setAll (2 ^ width.bits) (width.cells bytes) writes := by
  induction writes generalizing bytes with
  | nil => exact ⟨bytes, rfl, rfl, rfl⟩
  | cons write rest ih =>
    obtain ⟨position, value⟩ := write
    obtain ⟨hposition, hrest⟩ := List.forall_mem_cons.mp hinside
    have hsize := width.size_write bytes position value
    obtain ⟨written, hwritten, hwrittenSize, hcells⟩ :=
      @ih (width.write bytes position value) (by rwa [hsize])
    refine ⟨written, ?_, hwrittenSize.trans hsize, ?_⟩
    · rw [writeAll?_cons, write?, if_pos (div_perByte_lt_iff.mpr hposition)]
      exact hwritten
    · rw [hcells, cells_write hposition]
      rfl

/-- A write past the end stops the others. -/
theorem writeAll?_eq_none (houtside : ¬∀ write ∈ writes, write.1 < bytes.size * width.perByte) :
    width.writeAll? bytes writes = none := by
  induction writes generalizing bytes with
  | nil => exact absurd nofun houtside
  | cons write rest ih =>
    obtain ⟨position, value⟩ := write
    rw [writeAll?_cons, write?]
    split
    · next hplace =>
      rw [Option.bind_some]
      apply ih
      rw [size_write]
      exact fun hrest ↦
        houtside (List.forall_mem_cons.mpr ⟨div_perByte_lt_iff.mp hplace, hrest⟩)
    · rfl

theorem isSome_writeAll?_iff : (width.writeAll? bytes writes).isSome ↔
    ∀ write ∈ writes, write.1 < bytes.size * width.perByte := by
  constructor
  · intro hsome
    by_contra houtside
    rw [writeAll?_eq_none houtside] at hsome
    contradiction
  · intro hinside
    obtain ⟨written, hwritten, -, -⟩ := cells_of_writeAll hinside
    rw [hwritten]
    rfl

theorem of_writeAll {written : Array UInt8} (h : width.writeAll? bytes writes = some written) :
    written.size = bytes.size ∧
      width.cells written = setAll (2 ^ width.bits) (width.cells bytes) writes := by
  obtain ⟨other, hother, hsize, hcells⟩ :=
    cells_of_writeAll (isSome_writeAll?_iff.mp (Option.isSome_of_eq_some h))
  rw [h] at hother
  cases hother
  exact ⟨hsize, hcells⟩

/-- Writes that have room together and set the cells alike leave the same bytes. -/
theorem writeAll?_congr {others : List (Nat × Nat)}
    (hroom : ∀ limit, (∀ write ∈ writes, write.1 < limit) ↔ ∀ write ∈ others, write.1 < limit)
    (hcells : ∀ cells, setAll (2 ^ width.bits) cells writes =
      setAll (2 ^ width.bits) cells others) :
    width.writeAll? bytes writes = width.writeAll? bytes others := by
  have hiff := hroom (bytes.size * width.perByte)
  by_cases hinside : ∀ write ∈ writes, write.1 < bytes.size * width.perByte
  · obtain ⟨first, hfirst, hfirstSize, hfirstCells⟩ := cells_of_writeAll hinside
    obtain ⟨second, hsecond, hsecondSize, hsecondCells⟩ := cells_of_writeAll (hiff.mp hinside)
    rw [hfirst, hsecond]
    congr 1
    apply cells_injective (hfirstSize.trans hsecondSize.symm)
    rw [hfirstCells, hsecondCells, hcells]
  · rw [writeAll?_eq_none hinside, writeAll?_eq_none fun h ↦ hinside (hiff.mpr h)]

/-! ### Setting places of a list -/

/-- A place holds what it was set to last, or what it held before. -/
theorem getElem?_setAll {bound : Nat} {cells : List Nat} (hposition : position < cells.length) :
    (setAll bound cells writes)[position]? =
      ((lastWritten? writes position).map (· % bound)).or cells[position]? := by
  induction writes generalizing cells with
  | nil => rfl
  | cons write rest ih =>
    obtain ⟨place, value⟩ := write
    have hlast : lastWritten? ((place, value) :: rest) position =
        (lastWritten? rest position).or ([(place, value)].lookup position) := by
      rw [lastWritten?, List.reverse_cons, List.lookup_append]
      rfl
    have hposition' : position < (cells.set place (value % bound)).length := by
      simpa using hposition
    have hstep := ih hposition'
    rw [hlast]
    refine hstep.trans ?_
    cases lastWritten? rest position with
    | some last => rfl
    | none =>
      rw [List.getElem?_set]
      by_cases hplace : place = position
      · subst hplace
        simp [hposition]
      · have hkey : (position == place) = false := by simpa using Ne.symm hplace
        simp [List.lookup_cons, hplace, hkey]

/-! ### The law -/

/-- The bytes up to a field are there exactly when its position is inside. -/
theorem bytesFor_succ_le_iff :
    bytesFor (position + 1) width.bits ≤ bytes.size ↔
      position < bytes.size * width.perByte := by
  unfold bytesFor
  cases width <;> simp only [bits, perByte] <;> omega

/-- Bytes of fields behave as an array of cells under any writes. -/
theorem actsAsCells (width : FieldWidth) (bytes : Array UInt8) (writes : List (Nat × Nat)) :
    width.ActsAsCells bytes writes where
  written_iff := by simp only [isSome_writeAll?_iff, isSome_read?_iff]
  size_eq _ hwritten := (of_writeAll hwritten).1
  read_eq written hwritten position hposition := by
    rw [isSome_read?_iff] at hposition
    rw [read?_eq_getElem?, (of_writeAll hwritten).2,
      getElem?_setAll (by rwa [length_cells]), ← read?_eq_getElem?, read?_eq_field hposition]
    cases lastWritten? writes position <;> rfl
  commutes first second value other hne := by
    rw [writeAll?_append, writeAll?_append]
    congr 1
    funext bytes
    exact writeAll?_congr (fun limit ↦ by simp [and_comm]) fun cells ↦ List.set_comm _ _ hne
  last_wins position value other := by
    rw [writeAll?_append, writeAll?_append]
    congr 1
    funext bytes
    exact writeAll?_congr (fun limit ↦ by simp) fun cells ↦ List.set_set ..
  inside_iff position hposition := by
    rw [isSome_read?_iff, packedLength_of_le (width.mul_bits_le_maxUnsigned hposition),
      bytesFor_succ_le_iff]

/-- Two fields of two bytes, one of them written twice, with values too large for them. -/
example : two.writeAll? #[0xFF, 0x00] [(1, 0), (5, 6), (1, 9)] = some #[0xF7, 0x08] := by decide

end Columnar.FieldWidth
