import Columnar.Mapping

/-!
# Looking through several mappings

A row resolves through a composition exactly as it resolves through the later mapping first and
through the earlier one then (`resolve?_compose`). `trace?` follows a row through any number of
mappings, and composing all of them into one leads to the same source row (`resolve?_composeAll`).

Composing keeps the entries of the earlier mapping as they are, even those that name no row, and
writes `-1` only where the later one names none. So how compositions are nested does not even show
in the entries: what composing does to one entry (`follow`) is itself composed (`follow_compose`).
-/

set_option autoImplicit false
set_option relaxedAutoImplicit false

namespace Columnar.Mapping

/-- A row that shows a source row is a row of the mapping, and shows a row of the source. -/
theorem lt_of_resolve? {mapping : Mapping} {row sourceSize source : Nat}
    (h : mapping.resolve? row sourceSize = some (some source)) :
    row < mapping.size ∧ source < sourceSize := by
  obtain ⟨entry, hentry, htarget⟩ := Option.map_eq_some_iff.mp h
  exact ⟨(Array.getElem?_eq_some_iff.mp hentry).1, (target?_eq_some_iff.mp htarget).2⟩

theorem resolve?_of_size_le {mapping : Mapping} {row : Nat} (h : mapping.size ≤ row)
    (sourceSize : Nat) : mapping.resolve? row sourceSize = none := by
  have hnone : mapping.entries[row]? = none := Array.getElem?_eq_none h
  rw [resolve?, hnone, Option.map_none]

theorem resolve?_compose (base next : Mapping) (row sourceSize : Nat) :
    (base.compose next).resolve? row sourceSize =
      (next.resolve? row base.size).map fun shown ↦
        shown.bind fun source ↦ (base.resolve? source sourceSize).join := by
  unfold resolve? compose
  rw [Array.getElem?_map]
  cases next.entries[row]? with
  | none => rfl
  | some entry =>
    simp only [Option.map_some]
    cases htarget : target? base.size entry with
    | none => rfl
    | some source =>
      have hsource : source < base.entries.size := (target?_eq_some_iff.mp htarget).2
      simp only [Array.getElem?_eq_getElem hsource, Option.getD_some, Option.bind_some,
        Option.map_some, Option.join_some]

/-! ### Many mappings -/

/-- The source row that a row leads to through mappings applied one after the other, the first one
to the source. There is none when a row on the way is outside what it indexes. -/
def trace? (sourceSize : Nat) : List Mapping → Nat → Option Nat
  | [], row => if row < sourceSize then some row else none
  | mapping :: rest, row =>
    (trace? mapping.size rest row).bind fun shown ↦ (mapping.resolve? shown sourceSize).join

/-- One mapping for many, applied one after the other. -/
def composeAll (first : Mapping) (rest : List Mapping) : Mapping := rest.foldl compose first

/-- The number of rows after the last of the mappings. -/
def lastSize (sourceSize : Nat) (mappings : List Mapping) : Nat :=
  (mappings.getLast?.map size).getD sourceSize

theorem lastSize_cons (sourceSize : Nat) (mapping : Mapping) (rest : List Mapping) :
    lastSize sourceSize (mapping :: rest) = lastSize mapping.size rest := by
  cases rest with
  | nil => rfl
  | cons next rest => simp [lastSize, List.getLast?_cons]

theorem lastSize_le {sourceSize bound : Nat} {mappings : List Mapping}
    (hsource : sourceSize ≤ bound)
    (h : ∀ mapping ∈ mappings, mapping.size ≤ bound) : lastSize sourceSize mappings ≤ bound := by
  unfold lastSize
  cases hlast : mappings.getLast? with
  | none => exact hsource
  | some last => exact h last (List.mem_of_getLast? hlast)

theorem trace?_singleton (sourceSize : Nat) (mapping : Mapping) (row : Nat) :
    trace? sourceSize [mapping] row = (mapping.resolve? row sourceSize).join := by
  unfold trace? trace?
  split
  · rfl
  · next hrow =>
    rw [resolve?_of_size_le (Nat.not_lt.mp hrow)]
    rfl

theorem lt_of_trace? {sourceSize row source : Nat} {mappings : List Mapping}
    (h : trace? sourceSize mappings row = some source) : source < sourceSize := by
  cases mappings with
  | nil =>
    simp only [trace?, Option.ite_none_right_eq_some, Option.some.injEq] at h
    exact h.2 ▸ h.1
  | cons mapping rest =>
    obtain ⟨shown, -, hshown⟩ := Option.bind_eq_some_iff.mp h
    exact (lt_of_resolve? (Option.join_eq_some_iff.mp hshown)).2

/-- Two mappings lead where their composition leads. -/
theorem trace?_compose (sourceSize : Nat) (base next : Mapping) (rest : List Mapping) (row : Nat) :
    trace? sourceSize (base.compose next :: rest) row =
      trace? sourceSize (base :: next :: rest) row := by
  simp only [trace?, size_compose, Option.bind_assoc]
  refine congrArg _ (funext ?_)
  intro shown
  rw [resolve?_compose]
  cases next.resolve? shown base.size with
  | none => rfl
  | some shown => cases shown <;> rfl

theorem resolve?_composeAll (sourceSize : Nat) (first : Mapping) (rest : List Mapping)
    (row : Nat) :
    ((composeAll first rest).resolve? row sourceSize).join =
      trace? sourceSize (first :: rest) row := by
  induction rest generalizing first with
  | nil => exact (trace?_singleton sourceSize first row).symm
  | cons next rest ih =>
    have hfirst := ih (first.compose next)
    rw [trace?_compose] at hfirst
    exact hfirst

theorem size_composeAll (first : Mapping) (rest : List Mapping) :
    (composeAll first rest).size = lastSize first.size rest := by
  induction rest generalizing first with
  | nil => rfl
  | cons next rest ih =>
    have hnext := ih (first.compose next)
    rw [size_compose] at hnext
    rw [lastSize_cons]
    exact hnext

/-! ### Entry by entry -/

/-- What composing with `base` makes of an entry. -/
def follow (base : Mapping) (entry : Int) : Int :=
  match target? base.size entry with
  | some row => base.entries[row]?.getD (-1)
  | none => -1

theorem compose_eq (base next : Mapping) :
    base.compose next = ⟨next.entries.map base.follow⟩ := rfl

theorem follow_of_target? {base : Mapping} {entry : Int} {row : Nat}
    (h : target? base.size entry = some row) :
    ∃ hrow : row < base.entries.size, base.follow entry = base.entries[row] := by
  have hrow : row < base.entries.size := (target?_eq_some_iff.mp h).2
  refine ⟨hrow, ?_⟩
  simp only [follow, h, Array.getElem?_eq_getElem hrow, Option.getD_some]

theorem follow_of_target?_eq_none {base : Mapping} {entry : Int}
    (h : target? base.size entry = none) : base.follow entry = -1 := by
  simp only [follow, h]

/-- Nothing names a row by `-1`. -/
theorem follow_neg_one (base : Mapping) : base.follow (-1) = -1 := rfl

/-- An entry that is out of range for the later mapping becomes `-1` there, which stays `-1`. -/
theorem follow_compose (base next : Mapping) (entry : Int) :
    (base.compose next).follow entry = base.follow (next.follow entry) := by
  cases htarget : target? next.size entry with
  | none =>
    rw [follow_of_target?_eq_none htarget, follow_neg_one]
    apply follow_of_target?_eq_none
    rwa [size_compose]
  | some row =>
    have hcomposed : target? (base.compose next).size entry = some row := by rwa [size_compose]
    obtain ⟨hrow, hnext⟩ := follow_of_target? htarget
    obtain ⟨_, hentry⟩ := follow_of_target? hcomposed
    rw [hnext, hentry]
    exact Array.getElem_map ..

theorem compose_assoc (base next last : Mapping) :
    (base.compose next).compose last = base.compose (next.compose last) := by
  rw [compose_eq, compose_eq base (next.compose last), compose_eq next last]
  refine congrArg mk ?_
  rw [Array.map_map]
  exact Array.map_congr_left fun entry _ ↦ follow_compose base next entry

/-! ### The identity -/

/-- The mapping with `-1` for every entry that names none of so many rows. -/
def confine (mapping : Mapping) (size : Nat) : Mapping :=
  ⟨mapping.entries.map fun entry : Int ↦ if 0 ≤ entry ∧ entry < size then entry else -1⟩

theorem identity_eq_ok_iff {size : Nat} {whole : Mapping} :
    identity size = .ok whole ↔
      size ≤ rowLimit ∧ whole = ⟨Array.ofFn fun row : Fin size ↦ (row : Int)⟩ := by
  unfold identity Fault.require
  by_cases h : size ≤ rowLimit
  · rw [decide_eq_true h]
    exact ⟨fun hok ↦ ⟨h, (Except.ok.inj hok).symm⟩, fun hok ↦ congrArg Except.ok hok.2.symm⟩
  · rw [decide_eq_false h]
    exact ⟨nofun, fun hok ↦ absurd hok.1 h⟩

theorem identity_of_lt {size : Nat} (h : rowLimit < size) :
    identity size = .error (.invalidArgument "len" "len <= i32::MAX as usize") := by
  unfold identity Fault.require
  rw [decide_eq_false (Nat.not_le.mpr h)]
  rfl

section Identity

variable {size : Nat} {whole : Mapping} (h : identity size = .ok whole)

include h

theorem size_of_identity : whole.size = size := by
  obtain ⟨-, rfl⟩ := identity_eq_ok_iff.mp h
  exact Array.size_ofFn

/-- The identity keeps the entries that name one of its rows. -/
theorem follow_of_identity (entry : Int) :
    whole.follow entry = if 0 ≤ entry ∧ entry < size then entry else -1 := by
  have hsize := size_of_identity h
  cases htarget : target? whole.size entry with
  | none =>
    rw [follow_of_target?_eq_none htarget, if_neg]
    rintro ⟨hnonneg, hlt⟩
    have hsome : target? whole.size entry = some entry.toNat :=
      target?_eq_some_iff.mpr ⟨(Int.toNat_of_nonneg hnonneg).symm, by omega⟩
    rw [htarget] at hsome
    contradiction
  | some row =>
    obtain ⟨rfl, hlt⟩ := target?_eq_some_iff.mp htarget
    obtain ⟨hrow, hfollow⟩ := follow_of_target? htarget
    rw [hfollow, if_pos (by omega)]
    obtain ⟨-, rfl⟩ := identity_eq_ok_iff.mp h
    exact Array.getElem_ofFn hrow

theorem compose_identity {base : Mapping} (hbase : base.size = size) :
    base.compose whole = base := by
  obtain ⟨-, rfl⟩ := identity_eq_ok_iff.mp h
  rw [compose_eq]
  refine congrArg mk (Array.ext ?_ fun row _ hrow ↦ ?_)
  · rw [Array.size_map, Array.size_ofFn]
    exact hbase.symm
  · obtain ⟨_, hfollow⟩ := @follow_of_target? base row row (target?_eq_some_iff.mpr ⟨rfl, hrow⟩)
    rw [Array.getElem_map, Array.getElem_ofFn]
    exact hfollow

theorem identity_compose (next : Mapping) : whole.compose next = next.confine size := by
  rw [compose_eq]
  refine congrArg mk (Array.map_congr_left fun entry _ ↦ ?_)
  exact follow_of_identity h entry

end Identity

/-- A row of the composition is resolved, and shows a source row exactly when the later mapping
shows a row of the earlier one that shows it. -/
theorem exists_resolve?_compose (base next : Mapping) {row : Nat} (hrow : row < next.size)
    (sourceSize : Nat) :
    ∃ shown, (base.compose next).resolve? row sourceSize = some shown ∧
      ∀ source, shown = some source ↔ ∃ place,
        next.resolve? row base.size = some (some place) ∧
          base.resolve? place sourceSize = some (some source) := by
  rw [resolve?_compose]
  have hentry : next.resolve? row base.size = some (target? base.size next.entries[row]) := by
    rw [resolve?, Array.getElem?_eq_getElem hrow, Option.map_some]
  rw [hentry]
  refine ⟨_, rfl, fun source ↦ ?_⟩
  simp only [Option.bind_eq_some_iff, Option.join_eq_some_iff, Option.some.injEq]

/-- Composing is associative to the entry. The identity of as many rows as a mapping has can stand
after it, and in front of a mapping it only confines the entries to its rows. A row looks through a
composition as through one mapping after the other. -/
theorem compose_as_views (base next last : Mapping) :
    (base.compose next).compose last = base.compose (next.compose last) ∧
    (∀ size, rowLimit < size →
      identity size = .error (.invalidArgument "len" "len <= i32::MAX as usize")) ∧
    (∀ size ≤ rowLimit, ∃ whole, identity size = .ok whole ∧ whole.size = size ∧
      (base.size = size → base.compose whole = base) ∧ whole.compose base = base.confine size) ∧
    ∀ row < next.size, ∀ sourceSize,
      ∃ shown, (base.compose next).resolve? row sourceSize = some shown ∧
        ∀ source, shown = some source ↔ ∃ place,
          next.resolve? row base.size = some (some place) ∧
            base.resolve? place sourceSize = some (some source) := by
  refine ⟨compose_assoc base next last, fun size hsize ↦ identity_of_lt hsize, ?_,
    fun row hrow sourceSize ↦ exists_resolve?_compose base next hrow sourceSize⟩
  intro size hsize
  have hwhole := identity_eq_ok_iff.mpr ⟨hsize, rfl⟩
  exact ⟨_, hwhole, size_of_identity hwhole, compose_identity hwhole, identity_compose hwhole base⟩

end Columnar.Mapping
