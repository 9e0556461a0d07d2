import Columnar.Proofs.Column.Chains
import Columnar.Proofs.Column.Replaying

/-!
# Views that are kept

A column that is not sparse becomes a view over the store it has whenever a view is asked for and
pays off, and is gathered otherwise (`map_of_not_sparse`). Whether a view of numbers pays off is
decided by the store, not by the view that is derived from, and no step exchanges the store of a
view. So a chain of views keeps the first store, and what it shows is the composition of all its
mappings (`exists_deriveAll_viewed`). A view of numbers exists only because the last step covered a
tenth of the store, so none keeps more than ten times its rows alive (`Taken.Lawful.size_le`).
-/

set_option autoImplicit false
set_option relaxedAutoImplicit false

namespace Columnar

/-- The mapping of a view that is derived through `next`. -/
def Mapping.viewedThrough (current? : Option (Shared Mapping)) (next : Shared Mapping)
    (fresh : Token) : Shared Mapping :=
  match current? with
  | some current => ⟨fresh, current.value.compose next.value⟩
  | none => next

theorem Mapping.size_viewedThrough (current? : Option (Shared Mapping)) (next : Shared Mapping)
    (fresh : Token) : (viewedThrough current? next fresh).value.size = next.value.size := by
  cases current? with
  | none => rfl
  | some current => exact size_compose current.value next.value

/-- A layout that is not sparse shares its store with the view, or is gathered from it. -/
theorem Layout.map_of_not_sparse {S C : Type} [Cell C] [Store S C] {layout : Layout S C}
    (h : layout.arrangement ≠ .sparse) (mapping : Shared Mapping) (view : Bool) (fresh : Token) :
    layout.map mapping view fresh = .ok (viewOrGather layout.prototype
      (Mapping.viewedThrough layout.mapping? mapping fresh) view) := by
  cases layout with
  | sparse source => exact absurd rfl h
  | _ => rfl

/-! ### Column data over a store -/

namespace ColumnData

/-- Another layout of the store of the data; a dictionary is kept. -/
def onStore (data : ColumnData)
    (f : {S C : Type} → [Cell C] → [Store S C] → S → Layout S C) : ColumnData :=
  match data with
  | numbers layout => numbers (f layout.prototype)
  | times layout => times (f layout.prototype)
  | instants layout => instants (f layout.prototype)
  | categories layout dictionary => categories (f layout.prototype) dictionary
  | objects layout => objects (f layout.prototype)

/-- The view of a mapping over the store of the data. -/
def viewed (data : ColumnData) (mapping : Shared Mapping) : ColumnData :=
  data.onStore fun store ↦ .mapped store mapping

/-- The cells that a mapping shows of the store of the data. -/
def gathered (data : ColumnData) (mapping : Mapping) : ColumnData :=
  data.onStore fun store ↦ .dense (Store.gather store mapping)

/-- Where the data is numbers, the mapping has at least a tenth as many rows as their store. -/
def CoveredBy (data : ColumnData) (mapping : Mapping) : Prop :=
  ∀ layout, data = .numbers layout → Store.size layout.prototype ≤ 10 * mapping.size

variable {data : ColumnData}

theorem arrangement_viewed (type : ColumnType) (data : ColumnData) (mapping : Shared Mapping) :
    (Column.mk type (data.viewed mapping)).arrangement = .mapped := by
  cases data <;> rfl

theorem mapping?_viewed (type : ColumnType) (data : ColumnData) (mapping : Shared Mapping) :
    (Column.mk type (data.viewed mapping)).mapping? = some mapping := by
  cases data <;> rfl

theorem arrangement_gathered (type : ColumnType) (data : ColumnData) (mapping : Mapping) :
    (Column.mk type (data.gathered mapping)).arrangement = .dense := by
  cases data <;> rfl

theorem size_viewed (type : ColumnType) (data : ColumnData) (mapping : Shared Mapping) :
    (Column.mk type (data.viewed mapping)).size = mapping.value.size := by
  cases data <;> rfl

theorem size_gathered (type : ColumnType) (data : ColumnData) (mapping : Mapping) :
    (Column.mk type (data.gathered mapping)).size = mapping.size := by
  cases data <;> exact LawfulStore.size_gather _ mapping

/-- A view of a view is over the same store. -/
theorem viewed_viewed (data : ColumnData) (first second : Shared Mapping) :
    (data.viewed first).viewed second = data.viewed second := by
  cases data <;> rfl

/-- What covers the store of a view covers the store it is over. -/
theorem CoveredBy.viewed {mapping : Mapping} (h : data.CoveredBy mapping)
    (shown : Shared Mapping) : (data.viewed shown).CoveredBy mapping := by
  intro layout hlayout
  cases data with
  | numbers source =>
    cases hlayout
    exact h source rfl
  | _ => contradiction

end ColumnData

namespace Column

variable {column derived : Column} {mapping : Shared Mapping} {preferView : Bool} {fresh : Token}

theorem viewPaysOff_iff {mapping : Mapping} :
    column.viewPaysOff mapping ↔ column.data.CoveredBy mapping := by
  obtain ⟨type, data⟩ := column
  unfold viewPaysOff ColumnData.CoveredBy viewCoverage
  cases data with
  | numbers layout =>
    rw [decide_eq_true_iff, Nat.mul_comm]
    constructor
    · intro hcovered other hother
      cases hother
      exact hcovered
    · intro hcovered
      exact hcovered layout rfl
  | _ => exact ⟨fun _ ↦ nofun, fun _ ↦ rfl⟩

theorem arrangement_ne_mapped_iff : column.arrangement ≠ .mapped ↔ column.mapping? = none := by
  rw [Ne, ← isSome_mapping?_iff, Option.not_isSome_iff_eq_none]

/-- A column that is not sparse becomes a view over its store if one is asked for and pays off, and
is gathered otherwise. -/
theorem map_of_not_sparse (h : column.arrangement ≠ .sparse) (mapping : Shared Mapping)
    (preferView : Bool) (fresh : Token) :
    column.map mapping preferView fresh = .ok ⟨column.type,
      if preferView && column.viewPaysOff mapping.value then
        column.data.viewed (Mapping.viewedThrough column.mapping? mapping fresh)
      else column.data.gathered (Mapping.viewedThrough column.mapping? mapping fresh).value⟩ := by
  obtain ⟨view, hview⟩ : ∃ view, (preferView && column.viewPaysOff mapping.value) = view := ⟨_, rfl⟩
  obtain ⟨type, data⟩ := column
  have hlayout {S C : Type} [Cell C] [Store S C] (layout : Layout S C)
      (wrap : Layout S C → ColumnData) (hsparse : layout.arrangement ≠ .sparse) :
      wrap <$> layout.map mapping view fresh = (.ok (wrap (Layout.viewOrGather layout.prototype
        (Mapping.viewedThrough layout.mapping? mapping fresh) view)) : Outcome ColumnData) := by
    rw [Layout.map_of_not_sparse hsparse]
    rfl
  have hdata : (data.traverse fun layout ↦ layout.map mapping view fresh) =
      (.ok (if view then
        data.viewed (Mapping.viewedThrough (Column.mk type data).mapping? mapping fresh)
      else data.gathered (Mapping.viewedThrough (Column.mk type data).mapping? mapping fresh).value)
        : Outcome ColumnData) := by
    cases data with
    | numbers layout => cases view <;> exact hlayout layout .numbers h
    | times layout => cases view <;> exact hlayout layout .times h
    | instants layout => cases view <;> exact hlayout layout .instants h
    | categories layout dictionary =>
      cases view <;> exact hlayout layout (.categories · dictionary) h
    | objects layout => cases view <;> exact hlayout layout .objects h
  unfold map
  simp only [hview, hdata]
  rfl

theorem map_of_coveredBy (hsparse : column.arrangement ≠ .sparse)
    (hcovered : column.data.CoveredBy mapping.value) (fresh : Token) :
    column.map mapping true fresh = .ok ⟨column.type,
      column.data.viewed (Mapping.viewedThrough column.mapping? mapping fresh)⟩ := by
  rw [map_of_not_sparse hsparse, Bool.true_and, if_pos (viewPaysOff_iff.mpr hcovered)]

/-- What is derived from a sparse column is no view. -/
theorem arrangement_of_map_sparse (h : column.arrangement = .sparse)
    (hmap : column.map mapping preferView fresh = .ok derived) : derived.arrangement ≠ .mapped := by
  obtain ⟨data, hdata, hderived⟩ := Outcome.bind_eq_ok_iff.mp hmap
  cases hderived
  have hlayout {S C : Type} [Cell C] [Store S C] {layout : Layout S C} {view : Bool}
      {wrap : Layout S C → ColumnData}
      (hwrap : ∀ layout, (Column.mk column.type (wrap layout)).mapping? = layout.mapping?)
      (hsparse : layout.arrangement = .sparse)
      (hdata : wrap <$> layout.map mapping view fresh = .ok data) :
      (Column.mk column.type data).mapping? = none := by
    cases layout with
    | sparse source =>
      cases hderived : Layout.ofSparse source mapping.value with
      | error fault =>
        change wrap <$> Layout.ofSparse source mapping.value = .ok data at hdata
        rw [hderived] at hdata
        contradiction
      | ok derived =>
        change wrap <$> Layout.ofSparse source mapping.value = .ok data at hdata
        rw [hderived] at hdata
        cases hdata
        rw [hwrap]
        exact Layout.mapping?_of_ofSparse hderived
    | _ => contradiction
  rw [arrangement_ne_mapped_iff]
  obtain ⟨type, source⟩ := column
  cases source with
  | numbers layout => exact hlayout (fun _ ↦ rfl) h hdata
  | times layout => exact hlayout (fun _ ↦ rfl) h hdata
  | instants layout => exact hlayout (fun _ ↦ rfl) h hdata
  | categories layout dictionary => exact hlayout (fun _ ↦ rfl) h hdata
  | objects layout => exact hlayout (fun _ ↦ rfl) h hdata

end Column

/-! ### One step of a chain -/

/-- A step that a chain took, with the columns it led from and to. -/
structure Derivation.Taken where
  source : Column
  step : Derivation
  derived : Column

namespace Derivation

/-- The step leads to a view over the store of its source, showing what the composition of the two
mappings shows, if it asks for one that pays off; to a dense column of the rows of its mapping, if
not; and never from a sparse column to a view. -/
structure Taken.Lawful (taken : Taken) : Prop where
  type : taken.derived.type = taken.source.type
  viewed : taken.source.arrangement ≠ .sparse → taken.step.preferView = true →
    taken.source.data.CoveredBy taken.step.mapping.value → ∃ token,
      taken.derived.data = taken.source.data.viewed
        (Mapping.viewedThrough taken.source.mapping? taken.step.mapping token)
  dense : taken.source.arrangement ≠ .sparse →
    ¬(taken.step.preferView = true ∧ taken.source.data.CoveredBy taken.step.mapping.value) →
    taken.derived.arrangement = .dense ∧ taken.derived.size = taken.step.mapping.value.size
  sparse : taken.source.arrangement = .sparse → taken.derived.arrangement ≠ .mapped

theorem lawful_of_map {column derived : Column} {step : Derivation} {token : Token}
    (h : column.map step.mapping step.preferView token = .ok derived) :
    (Taken.mk column step derived).Lawful := by
  have hpays : (step.preferView && column.viewPaysOff step.mapping.value) = true ↔
      step.preferView = true ∧ column.data.CoveredBy step.mapping.value := by
    rw [Bool.and_eq_true, Column.viewPaysOff_iff]
  refine ⟨?_, fun (hsparse : column.arrangement ≠ .sparse) hview hcovered ↦ ⟨token, ?_⟩,
    fun (hsparse : column.arrangement ≠ .sparse) hnot ↦ ?_,
    fun hsparse ↦ Column.arrangement_of_map_sparse hsparse h⟩
  · obtain ⟨data, -, h⟩ := Outcome.bind_eq_ok_iff.mp h
    cases h
    rfl
  · rw [Column.map_of_not_sparse hsparse, if_pos (hpays.mpr ⟨hview, hcovered⟩)] at h
    cases h
    rfl
  · rw [Column.map_of_not_sparse hsparse, if_neg (mt hpays.mp hnot)] at h
    cases h
    refine ⟨ColumnData.arrangement_gathered _ _ _, ?_⟩
    exact (ColumnData.size_gathered _ _ _).trans (Mapping.size_viewedThrough _ _ _)

/-- A view of numbers has at least a tenth as many rows as the store that it keeps. -/
theorem Taken.Lawful.size_le {taken : Taken} (h : taken.Lawful)
    (hmapped : taken.derived.arrangement = .mapped) {layout : Layout NumberStore Binary64}
    (hnumbers : taken.derived.data = .numbers layout) :
    Store.size layout.prototype ≤ 10 * taken.derived.size := by
  obtain ⟨source, step, ⟨type, data⟩⟩ := taken
  have hsparse : source.arrangement ≠ .sparse := fun hsparse ↦ h.sparse hsparse hmapped
  have hview : step.preferView = true ∧ source.data.CoveredBy step.mapping.value := by
    apply Classical.byContradiction
    intro hnot
    obtain ⟨hdense, -⟩ := h.dense hsparse hnot
    rw [hmapped] at hdense
    contradiction
  obtain ⟨token, hdata⟩ := h.viewed hsparse hview.1 hview.2
  change data = source.data.viewed _ at hdata
  change data = .numbers layout at hnumbers
  have hsize : (Column.mk type data).size = step.mapping.value.size := by
    rw [hdata, ColumnData.size_viewed, Mapping.size_viewedThrough]
  have hcovered := hview.2.viewed (Mapping.viewedThrough source.mapping? step.mapping token)
  rw [← hdata] at hcovered
  change _ ≤ 10 * (Column.mk type data).size
  rw [hsize]
  exact hcovered layout hnumbers

end Derivation

/-! ### Whole chains -/

/-- After any history, a chain of held mappings from a view of a held one can begin. -/
theorem ChainSound.of_run {allocator : Allocator} {history : List HeapCall} {column : Column}
    {steps : List Derivation}
    (hview : ∀ mapping, column.mapping? = some mapping →
      mapping ∈ (Heap.run allocator history).held)
    (hsteps : ∀ step ∈ steps, step.mapping ∈ (Heap.run allocator history).held) :
    ChainSound column steps (Heap.run allocator history).cache := by
  have hheap := @Heap.sound_run allocator history
  refine ⟨hheap.coherent.mono ?_, hheap.truthful⟩
  intro mapping hmapping
  simp only [Derivation.held, List.mem_append, Option.mem_toList, List.mem_map] at hmapping
  apply List.mem_append.mpr
  rcases hmapping with (hshown | ⟨step, hstep, rfl⟩) | hkept
  · exact .inl (hview mapping hshown)
  · exact .inl (hsteps step hstep)
  · exact .inr hkept

/-- The steps that a chain takes, until one fails. -/
def Column.stepsTaken (allocator : Allocator) (time : Nat) :
    List Derivation → Column → MappingCache → List Derivation.Taken
  | [], _, _ => []
  | step :: rest, column, cache =>
    let live := Derivation.held column (step :: rest) ++ cache.kept
    let fresh := allocator.choose time (live.map Shared.token)
    match step.apply column fresh cache with
    | .ok (derived, after) =>
      ⟨column, step, derived⟩ :: stepsTaken allocator (time + 1) rest derived after
    | .error _ => []

namespace Column

variable {allocator : Allocator} {column final : Column} {steps : List Derivation}
  {cache after : MappingCache}

/-- A chain that succeeds takes all its steps, each from where the one before led. -/
theorem stepsTaken_of_deriveAll {time : Nat}
    (h : column.deriveAll allocator time steps cache = .ok (final, after)) :
    (column.stepsTaken allocator time steps cache).map (·.step) = steps ∧
      (column.stepsTaken allocator time steps cache).map (·.source) ++ [final] =
        column :: (column.stepsTaken allocator time steps cache).map (·.derived) := by
  induction steps generalizing column cache time with
  | nil =>
    cases h
    exact ⟨rfl, rfl⟩
  | cons step rest ih =>
    unfold deriveAll at h
    obtain ⟨⟨derived, middle⟩, happly, hrest⟩ := Outcome.bind_eq_ok_iff.mp h
    obtain ⟨hsteps, hcolumns⟩ := ih hrest
    unfold stepsTaken
    simp only [happly, List.map_cons, List.cons_append, hsteps, hcolumns, and_self]

/-- Every step of a chain from a sound state on is lawful. -/
theorem lawful_of_mem_stepsTaken {time : Nat} (hsound : ChainSound column steps cache) :
    ∀ taken ∈ column.stepsTaken allocator time steps cache, taken.Lawful := by
  induction steps generalizing column cache time with
  | nil => exact fun _ htaken ↦ absurd htaken List.not_mem_nil
  | cons step rest ih =>
    intro taken htaken
    obtain ⟨token, after, happly, hnext⟩ := Derivation.exists_apply_eq_map hsound
      (allocator.choose_notMem time _)
    unfold stepsTaken at htaken
    simp only [happly] at htaken
    cases hmap : column.map step.mapping step.preferView token with
    | error fault =>
      rw [hmap] at htaken
      contradiction
    | ok derived =>
      rw [hmap] at htaken
      rcases List.mem_cons.mp htaken with rfl | hlater
      · exact Derivation.lawful_of_map hmap
      · exact ih (hnext derived hmap) taken hlater

/-- A chain from a sound state on takes its first step as without the cache, under some token, and
goes on from a sound state. -/
theorem exists_deriveAll_cons (allocator : Allocator) (time : Nat) {step : Derivation}
    {rest : List Derivation} (hsound : ChainSound column (step :: rest) cache) :
    ∃ token after, ∀ derived, column.map step.mapping step.preferView token = .ok derived →
      ChainSound derived rest after ∧ column.deriveAll allocator time (step :: rest) cache =
        derived.deriveAll allocator (time + 1) rest after := by
  obtain ⟨token, after, happly, hnext⟩ := Derivation.exists_apply_eq_map hsound
    (allocator.choose_notMem time _)
  refine ⟨token, after, fun derived hmap ↦ ⟨hnext derived hmap, ?_⟩⟩
  rw [hmap] at happly
  rw [deriveAll]
  simp only [happly]
  rfl

/-- What is derived from a column that is not sparse is dense or a view, so a chain goes on. -/
theorem exists_deriveAll_of_not_sparse (allocator : Allocator) (time : Nat)
    (hsound : ChainSound column steps cache) (hsparse : column.arrangement ≠ .sparse) :
    ∃ final after, column.deriveAll allocator time steps cache = .ok (final, after) := by
  induction steps generalizing column cache time with
  | nil => exact ⟨column, cache, rfl⟩
  | cons step rest ih =>
    obtain ⟨token, after, hstep⟩ := exists_deriveAll_cons allocator time hsound
    obtain ⟨hnext, hchain⟩ := hstep _ (map_of_not_sparse hsparse _ _ token)
    rw [hchain]
    refine ih (time + 1) hnext ?_
    split
    · rw [ColumnData.arrangement_viewed]
      nofun
    · rw [ColumnData.arrangement_gathered]
      nofun

/-- A chain of views that all pay off leads to a view over the first store. -/
theorem exists_deriveAll_viewed (allocator : Allocator) (time : Nat) {first : Derivation}
    {rest : List Derivation} (hsound : ChainSound column (first :: rest) cache)
    (hsparse : column.arrangement ≠ .sparse)
    (hviews : ∀ step ∈ first :: rest,
      step.preferView = true ∧ column.data.CoveredBy step.mapping.value) :
    ∃ token shown after, column.deriveAll allocator time (first :: rest) cache =
        .ok (⟨column.type, column.data.viewed shown⟩, after) ∧
      shown.value = Mapping.composeAll
        (Mapping.viewedThrough column.mapping? first.mapping token).value
        (Derivation.mappings rest) ∧
      (rest = [] → shown = Mapping.viewedThrough column.mapping? first.mapping token) := by
  induction rest generalizing column cache time first with
  | nil =>
    obtain ⟨token, after, hstep⟩ := exists_deriveAll_cons allocator time hsound
    obtain ⟨hview, hcovered⟩ := hviews first List.mem_cons_self
    rw [hview] at hstep
    obtain ⟨-, hchain⟩ := hstep _ (map_of_coveredBy hsparse hcovered token)
    exact ⟨token, _, after, hchain, rfl, fun _ ↦ rfl⟩
  | cons second rest ih =>
    obtain ⟨token, after, hstep⟩ := exists_deriveAll_cons allocator time hsound
    obtain ⟨hview, hcovered⟩ := hviews first List.mem_cons_self
    rw [hview] at hstep
    obtain ⟨hnext, hchain⟩ := hstep _ (map_of_coveredBy hsparse hcovered token)
    have hmapped : (Column.mk column.type (column.data.viewed (Mapping.viewedThrough
        column.mapping? first.mapping token))).arrangement ≠ .sparse := by
      rw [ColumnData.arrangement_viewed]
      nofun
    -- The store stays, so the steps to come cover it as they covered the first one.
    obtain ⟨other, shown, last, hrest, hshown, -⟩ := ih (time + 1) hnext hmapped fun step hmem ↦
      (hviews step (List.mem_cons_of_mem _ hmem)).imp_right (·.viewed _)
    rw [ColumnData.viewed_viewed] at hrest
    rw [ColumnData.mapping?_viewed] at hshown
    exact ⟨token, shown, last, hchain.trans hrest, hshown, nofun⟩

/-- Views are kept and keep little alive. A chain of views from a dense column, each covering a
tenth of the store where that holds numbers, ends in a view over that very store: it shows what the
composition of the chain shows, through the given mapping itself if the chain is a single step. From
dense columns and views every chain succeeds. Every step that a chain takes, from whatever column
and cached or not, is lawful, and where it leads to a view of numbers, that has at least a tenth as
many rows as the store it is over. No store is looked into for a view, whatever it is a store of. -/
theorem keeps_views (allocator : Allocator) (history : List HeapCall) {column : Column}
    {steps : List Derivation}
    (hview : ∀ mapping, column.mapping? = some mapping →
      mapping ∈ (Heap.run allocator history).held)
    (hsteps : ∀ step ∈ steps, step.mapping ∈ (Heap.run allocator history).held) :
    (∀ first rest, steps = first :: rest → column.arrangement = .dense →
      (∀ step ∈ steps, step.preferView = true ∧ column.data.CoveredBy step.mapping.value) →
      ∃ shown after, column.deriveAll allocator (Heap.run allocator history).allocations steps
          (Heap.run allocator history).cache =
          .ok (⟨column.type, column.data.viewed shown⟩, after) ∧
        shown.value = Mapping.composeAll first.mapping.value (Derivation.mappings rest) ∧
        (rest = [] → shown = first.mapping)) ∧
    (column.arrangement ≠ .sparse → ∃ final after,
      column.deriveAll allocator (Heap.run allocator history).allocations steps
        (Heap.run allocator history).cache = .ok (final, after)) ∧
    (∀ final after, column.deriveAll allocator (Heap.run allocator history).allocations steps
        (Heap.run allocator history).cache = .ok (final, after) →
      let taken := column.stepsTaken allocator (Heap.run allocator history).allocations steps
        (Heap.run allocator history).cache
      taken.map (·.step) = steps ∧
        taken.map (·.source) ++ [final] = column :: taken.map (·.derived)) ∧
    (∀ taken ∈ column.stepsTaken allocator (Heap.run allocator history).allocations steps
        (Heap.run allocator history).cache,
      taken.Lawful ∧ (taken.derived.arrangement = .mapped → ∀ layout,
        taken.derived.data = .numbers layout →
        Store.size layout.prototype ≤ 10 * taken.derived.size)) ∧
    ∀ (S C : Type) [Cell C] [Store S C] (layout : Layout S C) (mapping : Shared Mapping)
      (fresh : Token) (cache : MappingCache), layout.arrangement ≠ .sparse →
      (∃ shown, layout.map mapping true fresh = .ok (.mapped layout.prototype shown)) ∧
      ∃ shown after, layout.mapCached mapping true fresh cache =
        .ok (.mapped layout.prototype shown, after) := by
  have hsound : ChainSound column steps (Heap.run allocator history).cache :=
    .of_run hview hsteps
  refine ⟨?_, exists_deriveAll_of_not_sparse allocator _ hsound,
    fun _ _ ↦ stepsTaken_of_deriveAll, ?_, ?_⟩
  · rintro first rest rfl hdense hviews
    have hsparse : column.arrangement ≠ .sparse := by
      rw [hdense]
      nofun
    have hnone : column.mapping? = none := by
      rw [← arrangement_ne_mapped_iff, hdense]
      nofun
    obtain ⟨token, shown, after, hchain, hshown, hsingle⟩ :=
      exists_deriveAll_viewed allocator _ hsound hsparse hviews
    rw [hnone] at hshown hsingle
    exact ⟨shown, after, hchain, hshown, hsingle⟩
  · intro taken htaken
    have hlawful := lawful_of_mem_stepsTaken hsound taken htaken
    exact ⟨hlawful, fun hmapped layout ↦ hlawful.size_le hmapped⟩
  · intro S C _ _ layout mapping fresh cache hsparse
    exact ⟨⟨_, layout.map_of_not_sparse hsparse mapping true fresh⟩,
      _, _, Layout.mapCached_of_not_sparse hsparse true⟩

/-- Two views of two numbers, one of them cached: the last one is over the two numbers, and its
mapping is the composition. -/
theorem keeps_views_two_numbers :
    ∃ shown after,
      (real [⟨4607182418800017408⟩, ⟨4611686018427387904⟩]).deriveAll .above 2
          [⟨⟨1, .ofList [5, 0]⟩, true, false⟩, ⟨⟨2, .ofList [0, 1, -1]⟩, true, true⟩] .empty =
        .ok (⟨.real, .numbers (.mapped ⟨#[⟨4607182418800017408⟩, ⟨4611686018427387904⟩]⟩ shown)⟩,
          after) ∧
      shown.value = .ofList [5, 0, -1] := by
  have hsteps : ∀ step ∈ [(⟨⟨1, .ofList [5, 0]⟩, true, false⟩ : Derivation),
      ⟨⟨2, .ofList [0, 1, -1]⟩, true, true⟩],
      step.mapping ∈ (Heap.run .above
        [.create (.ofList [5, 0]), .create (.ofList [0, 1, -1])]).held := by
    intro step hstep
    simp only [List.mem_cons, List.not_mem_nil, or_false] at hstep
    rcases hstep with rfl | rfl
    · exact List.mem_cons_of_mem _ List.mem_cons_self
    · exact List.mem_cons_self
  obtain ⟨hviews, -⟩ := @keeps_views .above
    [.create (.ofList [5, 0]), .create (.ofList [0, 1, -1])]
    (real [⟨4607182418800017408⟩, ⟨4611686018427387904⟩]) _ nofun hsteps
  obtain ⟨shown, after, hchain, hshown, -⟩ := hviews _ _ rfl rfl (by
    intro step hstep
    simp only [List.mem_cons, List.not_mem_nil, or_false] at hstep
    rcases hstep with rfl | rfl
    all_goals
      refine ⟨rfl, ?_⟩
      intro layout hlayout
      cases hlayout
      decide)
  exact ⟨shown, after, hchain, hshown.trans (by decide +kernel)⟩

end Column

end Columnar
