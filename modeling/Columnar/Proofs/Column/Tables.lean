import Columnar.Proofs.Column.Filling

/-!
# Filling tables

Columns of one length can fill a table row by row: each has the number of its place as its offset,
and the stride is the number of columns. No two of them ever write to the same place, since the
remainder of a place tells the column. So the table comes out row-major in whatever order the
columns are taken (`exists_fillTable`), and a fill from a later row starts at the front of the
buffer with that row.
-/

set_option autoImplicit false
set_option relaxedAutoImplicit false

namespace Columnar.Column

section Tables

variable {T : Type}

/-- A way of filling a buffer from a column: from a row on, from an offset on, with a stride. -/
abbrev Fill (T : Type) : Type := Column → Array T → (start offset step : Nat) →
  Outcome (Nat × Array T)

/-- Fills a buffer from one column after the other, each with its place among `width` columns as
offset. -/
def fillTable (fill : Fill T) (width start : Nat) (sequence : List (Column × Nat))
    (buffer : Array T) : Outcome (Array T) :=
  sequence.foldlM (fun filled entry ↦ Prod.snd <$> fill entry.1 filled start entry.2 width) buffer

/-- The buffer holds the rows of the columns from `start` on, one row after the other, and what it
held before after them. -/
structure RowMajor (cell : Column → Nat → T) (columns : List Column) (height start : Nat)
    (buffer filled : Array T) : Prop where
  size_eq : filled.size = buffer.size
  written : ∀ place column, columns[place]? = some column → ∀ k, start + k < height →
    k * columns.length + place < buffer.size →
      filled[k * columns.length + place]? = some (cell column (start + k))
  unchanged : ∀ spot, (height - start) * columns.length ≤ spot → filled[spot]? = buffer[spot]?

/-- What fills of some columns of a table leave: the rows of these columns, and the rest as it
was. -/
structure FillsColumns (cell : Column → Nat → T) (width height start : Nat)
    (sequence : List (Column × Nat)) (buffer filled : Array T) : Prop where
  size_eq : filled.size = buffer.size
  written : ∀ column place, (column, place) ∈ sequence → ∀ k, start + k < height →
    place + k * width < buffer.size → filled[place + k * width]? = some (cell column (start + k))
  unchanged : ∀ spot, (∀ entry ∈ sequence, ∀ k, start + k < height → spot ≠ entry.2 + k * width) →
    filled[spot]? = buffer[spot]?

variable {fill : Fill T} {cell : Column → Nat → T} {width height start : Nat}

/-- Columns of different places never meet. -/
theorem ne_of_place_ne {first second k other : Nat} (hfirst : first < width)
    (hsecond : second < width) (hne : first ≠ second) :
    first + k * width ≠ second + other * width := by
  intro h
  have hmod := congrArg (· % width) h
  simp only [Nat.add_mul_mod_self_right, Nat.mod_eq_of_lt hfirst, Nat.mod_eq_of_lt hsecond] at hmod
  exact hne hmod

/-- Fills that write exactly their rows add up, in the order they are made. -/
theorem exists_fillsColumns {sequence : List (Column × Nat)}
    (hfill : ∀ column place, (column, place) ∈ sequence → ∀ buffer : Array T, ∃ count filled,
      fill column buffer start place width = .ok (count, filled) ∧
        FillsRows height (cell column) buffer start place width count filled)
    (hplaces : ∀ entry ∈ sequence, entry.2 < width)
    (hdistinct : (sequence.map Prod.snd).Nodup) (buffer : Array T) :
    ∃ filled, fillTable fill width start sequence buffer = .ok filled ∧
      FillsColumns cell width height start sequence buffer filled := by
  induction sequence generalizing buffer with
  | nil =>
    exact ⟨buffer, rfl, rfl, fun _ _ hmem ↦ absurd hmem List.not_mem_nil, fun _ _ ↦ rfl⟩
  | cons head rest ih =>
    obtain ⟨column, place⟩ := head
    obtain ⟨hnew, hdistinct⟩ := List.nodup_cons.mp hdistinct
    obtain ⟨count, next, hnext, hrows⟩ := hfill column place List.mem_cons_self buffer
    obtain ⟨filled, hfilled, hrest⟩ := ih
      (fun other spot hmem ↦ hfill other spot (List.mem_cons_of_mem _ hmem))
      (fun entry hmem ↦ hplaces entry (List.mem_cons_of_mem _ hmem)) hdistinct next
    have hplace : place < width := hplaces _ List.mem_cons_self
    change place ∉ rest.map Prod.snd at hnew
    refine ⟨filled, ?_, hrest.size_eq.trans hrows.size_eq, ?_, ?_⟩
    · unfold fillTable
      rw [List.foldlM_cons, hnext]
      exact hfilled
    · intro other spot hmem k hk hinside
      rcases List.mem_cons.mp hmem with heq | hmem
      · -- The later fills are of other places.
        cases heq
        rw [hrest.unchanged]
        · exact hrows.written k (hrows.lt_iff.mpr ⟨hk, hinside⟩)
        · intro entry hentry more _
          refine ne_of_place_ne hplace (hplaces entry (List.mem_cons_of_mem _ hentry)) ?_
          intro heq
          rw [heq] at hnew
          exact hnew (List.mem_map_of_mem hentry)
      · exact hrest.written other spot hmem k hk (hrows.size_eq.symm ▸ hinside)
    · intro spot hspot
      rw [hrest.unchanged spot fun entry hentry ↦ hspot entry (List.mem_cons_of_mem _ hentry)]
      refine hrows.unchanged spot fun k hk ↦ hspot _ List.mem_cons_self k ?_
      exact (hrows.lt_iff.mp hk).1

/-- Filling all columns of a table, in any order, gives its rows. -/
theorem exists_fillTable {columns : List Column} {sequence : List (Column × Nat)}
    (hfill : ∀ column ∈ columns, ∀ (buffer : Array T) (place : Nat), ∃ count filled,
      fill column buffer start place columns.length = .ok (count, filled) ∧
        FillsRows height (cell column) buffer start place columns.length count filled)
    (hsequence : sequence.Perm columns.zipIdx) (buffer : Array T) :
    ∃ filled, fillTable fill columns.length start sequence buffer = .ok filled ∧
      RowMajor cell columns height start buffer filled := by
  have hmem {column : Column} {place : Nat} :
      (column, place) ∈ sequence ↔ columns[place]? = some column := by
    rw [hsequence.mem_iff, List.mem_zipIdx_iff_getElem?]
  have hlt {entry : Column × Nat} (hentry : entry ∈ sequence) : entry.2 < columns.length :=
    (List.getElem?_eq_some_iff.mp (hmem.mp hentry)).1
  have hdistinct : (sequence.map Prod.snd).Nodup := by
    rw [(hsequence.map Prod.snd).nodup_iff, List.zipIdx_map_snd]
    exact List.nodup_range'
  obtain ⟨filled, hfilled, hcolumns⟩ := exists_fillsColumns
    (fun column place hentry buffer ↦
      hfill column (List.mem_of_getElem? (hmem.mp hentry)) buffer place)
    (fun entry ↦ hlt) hdistinct buffer
  refine ⟨filled, hfilled, hcolumns.size_eq, ?_, ?_⟩
  · intro place column hcolumn k hk hinside
    rw [Nat.add_comm] at hinside ⊢
    exact hcolumns.written column place (hmem.mpr hcolumn) k hk hinside
  · intro spot hspot
    refine hcolumns.unchanged spot fun entry hentry k hk heq ↦ ?_
    have hplace := hlt hentry
    have hrow : k + 1 ≤ height - start := by omega
    have hnext := Nat.mul_le_mul_right columns.length hrow
    rw [Nat.succ_mul] at hnext
    omega

end Tables

variable {column : Column}

/-- The fills of a reachable column write exactly their rows, and columns of its length make up
tables, whatever the order of the fills. -/
theorem Reachable.fills_strided (h : column.Reachable) :
    column.FillsStrided ∧
    ∀ columns : List Column, (∀ other ∈ columns, other.Reachable ∧ other.size = column.size) →
      ∀ sequence : List (Column × Nat), sequence.Perm columns.zipIdx → ∀ start ≤ column.size,
        ((∀ other ∈ columns, other.type.supports .numericReadable) → ∀ buffer, ∃ filled,
          fillTable fillNumbers columns.length start sequence buffer = .ok filled ∧
            RowMajor (·.data.numberAt) columns column.size start buffer filled) ∧
        ((∀ other ∈ columns, other.type.supports .objectReadable) → ∀ buffer, ∃ filled,
          fillTable fillValues columns.length start sequence buffer = .ok filled ∧
            RowMajor (·.data.valueAt) columns column.size start buffer filled) := by
  refine ⟨fillsStrided_of_valid h.valid h.formed, ?_⟩
  intro columns hcolumns sequence hsequence start hstart
  have hwidth {other : Column} (hother : other ∈ columns) : 0 < columns.length :=
    List.length_pos_of_mem hother
  constructor
  · intro hreadable buffer
    refine exists_fillTable (fun other hother buffer place ↦ ?_) hsequence buffer
    obtain ⟨hreachable, hsize⟩ := hcolumns other hother
    rw [← hsize]
    exact (fillNumbers_law hreachable.valid hreachable.formed buffer start place _).fills
      (hreadable other hother) (hwidth hother) (hsize ▸ hstart)
  · intro hreadable buffer
    refine exists_fillTable (fun other hother buffer place ↦ ?_) hsequence buffer
    obtain ⟨hreachable, hsize⟩ := hcolumns other hother
    rw [← hsize]
    exact (fillValues_law hreachable.valid hreachable.formed buffer start place _).fills
      (hreadable other hother) (hwidth hother) (hsize ▸ hstart)

/-- A sparse column and a view, the view filled first, from the second row on. -/
theorem Reachable.fills_strided_two_columns : ∃ source first second,
    SparseStore.ofExceptions (Binary64.ofInt 1) 3 [1] (NumberStore.mk #[.ofInt 7]) = .ok source ∧
      Column.ofData .real (.numbers (.sparse source)) = .ok first ∧
      Column.ofData .real (.numbers (.mapped ⟨#[.ofInt 2, .ofInt 3]⟩ ⟨0, .ofList [1, -1, 0]⟩)) =
        .ok second ∧
      first.FillsStrided ∧
      fillTable fillNumbers 2 1 [(second, 1), (first, 0)] (Array.replicate 6 .zero) =
        .ok #[.ofInt 7, .nan, .ofInt 1, .ofInt 2, .zero, .zero] ∧
      RowMajor (·.data.numberAt) [first, second] 3 1 (Array.replicate 6 .zero)
        #[.ofInt 7, .nan, .ofInt 1, .ofInt 2, .zero, .zero] := by
  obtain ⟨source, hsource⟩ : ∃ source, SparseStore.ofExceptions (Binary64.ofInt 1) 3 [1]
      (NumberStore.mk #[.ofInt 7]) = .ok source := ⟨_, rfl⟩
  obtain ⟨first, hfirst⟩ : ∃ first,
      Column.ofData .real (.numbers (.sparse source)) = .ok first := ⟨_, rfl⟩
  obtain ⟨second, hsecond⟩ : ∃ second, Column.ofData .real (.numbers
      (.mapped ⟨#[.ofInt 2, .ofInt 3]⟩ ⟨0, .ofList [1, -1, 0]⟩)) = .ok second := ⟨_, rfl⟩
  have haccepted : (ColumnData.numbers (.sparse source)).Accepted :=
    ⟨.ofExceptions hsource, trivial⟩
  have haccepted' : (ColumnData.numbers
      (.mapped ⟨#[.ofInt 2, .ofInt 3]⟩ ⟨0, .ofList [1, -1, 0]⟩)).Accepted := ⟨trivial, trivial⟩
  have hreachable : first.Reachable := .ofData haccepted hfirst
  have hreachable' : second.Reachable := .ofData haccepted' hsecond
  have hsize : first.size = 3 ∧ second.size = first.size := by
    cases hsource
    cases hfirst
    cases hsecond
    exact ⟨rfl, rfl⟩
  have hcolumns : ∀ other ∈ [first, second], other.Reachable ∧ other.size = first.size :=
    List.forall_mem_cons.mpr ⟨⟨hreachable, rfl⟩,
      List.forall_mem_singleton.mpr ⟨hreachable', hsize.2⟩⟩
  have hreadable : ∀ other ∈ [first, second], other.type.supports .numericReadable := by
    cases hsource
    cases hfirst
    cases hsecond
    decide
  have htable : fillTable fillNumbers 2 1 [(second, 1), (first, 0)] (Array.replicate 6 .zero) =
      .ok #[.ofInt 7, .nan, .ofInt 1, .ofInt 2, .zero, .zero] := by
    cases hsource
    cases hfirst
    cases hsecond
    rfl
  obtain ⟨hfills, htables⟩ := hreachable.fills_strided
  obtain ⟨filled, hfilled, hrows⟩ := (htables [first, second] hcolumns [(second, 1), (first, 0)]
    (.swap _ _ _) 1 (by rw [hsize.1]; decide)).1 hreadable (Array.replicate 6 .zero)
  rw [hsize.1] at hrows
  cases hfilled.symm.trans htable
  exact ⟨source, first, second, hsource, hfirst, hsecond, hfills, htable, hrows⟩

end Columnar.Column
