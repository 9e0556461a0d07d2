import Columnar.Proofs.Column.Deriving
import Columnar.Proofs.Mapping.Sharing

/-!
# Chains of derivations

A column is derived again and again, through one mapping after the other, each time with or without
a view and with or without the cache. The last column reads what the mappings show one after the
other, and so does the column derived once through their composition
(`deriveAll_get_eq_trace`). The cache may have served any history before. While a chain goes on,
only the current column, the mappings still to come and the cache hold anything, so the tokens of
all else may be taken again.
-/

set_option autoImplicit false
set_option relaxedAutoImplicit false

namespace Columnar

/-! ### Deriving through the cache -/

/-- What the cache does when a column is derived through `next`: the token of the composed mapping,
and the cache from then on. Only a view asks it. -/
def MappingCache.consult (cache : MappingCache) (current? : Option (Shared Mapping))
    (next : Shared Mapping) (fresh : Token) : Token × MappingCache :=
  match current? with
  | some current =>
    ((cache.compose current next fresh).1.token, (cache.compose current next fresh).2)
  | none => (fresh, cache)

/-- The cache answers with the composition of a view's mapping and the next one. -/
def MappingCache.Answers (cache : MappingCache) (current? : Option (Shared Mapping))
    (next : Shared Mapping) (fresh : Token) : Prop :=
  ∀ current, current? = some current →
    (cache.compose current next fresh).1.value = current.value.compose next.value

section

variable {cache : MappingCache} {mapping : Shared Mapping} {fresh : Token}

/-- Deriving a layout through the cache is deriving it with the token that the cache gives. -/
theorem Layout.mapCached_eq {S C : Type} [Cell C] [Store S C] {layout : Layout S C} (view : Bool)
    (h : cache.Answers layout.mapping? mapping fresh) :
    layout.mapCached mapping view fresh cache =
      (fun derived ↦ (derived, (cache.consult layout.mapping? mapping fresh).2)) <$>
        layout.map mapping view (cache.consult layout.mapping? mapping fresh).1 := by
  cases layout with
  | dense store => rfl
  | sparse source =>
    show ((sparse source).map mapping view fresh >>= fun derived ↦
      (.ok (derived, cache) : Outcome (Layout S C × MappingCache))) = _
    change _ = (fun derived ↦ (derived, cache)) <$> (sparse source).map mapping view fresh
    cases (sparse source).map mapping view fresh <;> rfl
  | mapped store current =>
    have hvalue := h current rfl
    have heta : (⟨(cache.compose current mapping fresh).1.token,
        current.value.compose mapping.value⟩ : Shared Mapping) =
          (cache.compose current mapping fresh).1 := by
      rw [← hvalue]
    show Except.ok (viewOrGather store (cache.compose current mapping fresh).1 view, _) =
      Except.ok (viewOrGather store ⟨(cache.compose current mapping fresh).1.token,
        current.value.compose mapping.value⟩ view, _)
    rw [heta]
    rfl

theorem Column.mapCached_eq {column : Column} (preferView : Bool)
    (h : cache.Answers column.mapping? mapping fresh) :
    column.mapCached mapping preferView fresh cache =
      (fun derived ↦ (derived, (cache.consult column.mapping? mapping fresh).2)) <$>
        column.map mapping preferView (cache.consult column.mapping? mapping fresh).1 := by
  have hlayout {S C : Type} [Cell C] [Store S C] (layout : Layout S C) (view : Bool)
      (wrap : Layout S C → ColumnData) (hanswers : cache.Answers layout.mapping? mapping fresh) :
      (wrap <$> layout.mapCached mapping view fresh :
        StateT MappingCache Outcome ColumnData) cache =
        (fun data ↦ (data, (cache.consult layout.mapping? mapping fresh).2)) <$>
          (wrap <$> layout.map mapping view (cache.consult layout.mapping? mapping fresh).1) := by
    show (layout.mapCached mapping view fresh cache >>= fun (derived, after) ↦
      (.ok (wrap derived, after) : Outcome (ColumnData × MappingCache))) = _
    rw [Layout.mapCached_eq view hanswers]
    cases layout.map mapping view (cache.consult layout.mapping? mapping fresh).1 <;> rfl
  obtain ⟨type, data⟩ := column
  obtain ⟨view, hview⟩ : ∃ view,
      (preferView && Column.viewPaysOff ⟨type, data⟩ mapping.value) = view := ⟨_, rfl⟩
  have hdata : (data.traverse fun layout ↦ layout.mapCached mapping view fresh) cache =
      (fun derived ↦ (derived, (cache.consult data.mapping? mapping fresh).2)) <$>
        data.traverse fun layout ↦
          layout.map mapping view (cache.consult data.mapping? mapping fresh).1 := by
    cases data with
    | numbers layout => exact hlayout layout view _ h
    | times layout => exact hlayout layout view _ h
    | instants layout => exact hlayout layout view _ h
    | categories layout dictionary => exact hlayout layout view _ h
    | objects layout => exact hlayout layout view _ h
  unfold Column.mapCached Column.map
  simp only [hview]
  show ((data.traverse fun layout ↦ layout.mapCached mapping view fresh) cache >>=
    fun (derived, after) ↦ (.ok (⟨type, derived⟩, after) : Outcome (Column × MappingCache))) = _
  rw [hdata]
  change _ = (fun derived ↦ (derived, (cache.consult data.mapping? mapping fresh).2)) <$>
    ((data.traverse fun layout ↦
      layout.map mapping view (cache.consult data.mapping? mapping fresh).1) >>= fun derived ↦
        (.ok ⟨type, derived⟩ : Outcome Column))
  cases data.traverse fun layout ↦
    layout.map mapping view (cache.consult data.mapping? mapping fresh).1 <;> rfl

/-- The mapping of a derived view is the one it was derived through, or the composition. -/
theorem Column.mapping?_of_map {column derived : Column} {preferView : Bool}
    (h : column.map mapping preferView fresh = .ok derived) {shown : Shared Mapping}
    (hshown : derived.mapping? = some shown) :
    shown = mapping ∨ ∃ current, column.mapping? = some current ∧
      shown = ⟨fresh, current.value.compose mapping.value⟩ := by
  obtain ⟨data, hdata, hderived⟩ := Outcome.bind_eq_ok_iff.mp h
  cases hderived
  have hlayout {S C : Type} [Cell C] [Store S C] {layout : Layout S C} {view : Bool}
      {wrap : Layout S C → ColumnData} (hwrap : ∀ layout, (wrap layout).mapping? = layout.mapping?)
      (hmap : wrap <$> layout.map mapping view fresh = .ok data) :
      shown = mapping ∨ ∃ current, layout.mapping? = some current ∧
        shown = ⟨fresh, current.value.compose mapping.value⟩ := by
    cases hlayout : layout.map mapping view fresh with
    | error fault => rw [hlayout] at hmap; contradiction
    | ok derived =>
      rw [hlayout] at hmap
      cases hmap
      refine Layout.mapping?_of_map hlayout ?_
      rw [← hwrap]
      exact hshown
  obtain ⟨type, source⟩ := column
  cases source with
  | numbers layout => exact hlayout (fun _ ↦ rfl) hdata
  | times layout => exact hlayout (fun _ ↦ rfl) hdata
  | instants layout => exact hlayout (fun _ ↦ rfl) hdata
  | categories layout dictionary => exact hlayout (fun _ ↦ rfl) hdata
  | objects layout => exact hlayout (fun _ ↦ rfl) hdata

end

/-! ### One step of a chain -/

/-- How a column is derived next. -/
structure Derivation where
  mapping : Shared Mapping
  preferView : Bool
  cached : Bool

def Derivation.apply (step : Derivation) (column : Column) (fresh : Token) :
    StateT MappingCache Outcome Column :=
  if step.cached then column.mapCached step.mapping step.preferView fresh
  else fun cache ↦ return (← column.map step.mapping step.preferView fresh, cache)

/-- All that is held while a chain of derivations goes on. -/
def Derivation.held (column : Column) (steps : List Derivation) : List (Shared Mapping) :=
  column.mapping?.toList ++ steps.map (·.mapping)

/-- Applies the steps in order. -/
def Column.deriveAll (allocator : Allocator) (time : Nat) :
    List Derivation → Column → StateT MappingCache Outcome Column
  | [], column => pure column
  | step :: rest, column => fun cache ↦ do
    let live := Derivation.held column (step :: rest) ++ cache.kept
    let fresh := allocator.choose time (live.map Shared.token)
    let (derived, after) ← step.apply column fresh cache
    deriveAll allocator (time + 1) rest derived after

/-- Tokens are coherent between the chain and a cache that holds compositions only. -/
structure ChainSound (column : Column) (steps : List Derivation) (cache : MappingCache) : Prop where
  coherent : Coherent (Derivation.held column steps ++ cache.kept)
  truthful : cache.Truthful

/-- Deriving with a token that is not taken, or with the one of a stored composition, keeps the
tokens coherent. -/
theorem ChainSound.of_map {column derived : Column} {step : Derivation} {rest : List Derivation}
    {after : MappingCache} {token : Token}
    (hmap : column.map step.mapping step.preferView token = .ok derived)
    (hnone : column.mapping? = none →
      Coherent (Derivation.held column (step :: rest) ++ after.kept))
    (hsome : ∀ current, column.mapping? = some current →
      Coherent (⟨token, current.value.compose step.mapping.value⟩ ::
        Derivation.held column (step :: rest) ++ after.kept))
    (htruthful : after.Truthful) : ChainSound derived rest after := by
  have hnext : step.mapping ∈ Derivation.held column (step :: rest) := by simp [Derivation.held]
  have hrest : ∀ mapping ∈ rest.map (·.mapping),
      mapping ∈ Derivation.held column (step :: rest) := by
    intro mapping hmapping
    simp [Derivation.held, List.mem_map.mp hmapping]
  refine ⟨?_, htruthful⟩
  cases hcurrent : column.mapping? with
  | none =>
    apply (hnone hcurrent).mono
    intro mapping hmapping
    rcases List.mem_append.mp hmapping with hheld | hkept
    · rcases List.mem_append.mp hheld with hshown | hlater
      · rcases Column.mapping?_of_map hmap (Option.mem_toList.mp hshown) with rfl | ⟨_, hview, -⟩
        · exact List.mem_append_left _ hnext
        · rw [hcurrent] at hview
          contradiction
      · exact List.mem_append_left _ (hrest mapping hlater)
    · exact List.mem_append_right _ hkept
  | some current =>
    apply (hsome current hcurrent).mono
    intro mapping hmapping
    rcases List.mem_append.mp hmapping with hheld | hkept
    · rcases List.mem_append.mp hheld with hshown | hlater
      · rcases Column.mapping?_of_map hmap (Option.mem_toList.mp hshown) with
          rfl | ⟨other, hview, rfl⟩
        · exact List.mem_append_left _ (List.mem_cons_of_mem _ hnext)
        · rw [hcurrent] at hview
          cases hview
          exact List.mem_append_left _ List.mem_cons_self
      · exact List.mem_append_left _ (List.mem_cons_of_mem _ (hrest mapping hlater))
    · exact List.mem_append_right _ hkept

/-- Cached or not, a derivation is one without the cache, under a token that keeps a chain sound. -/
theorem Derivation.exists_apply_eq_map {step : Derivation} {rest : List Derivation}
    {column : Column} {cache : MappingCache} {fresh : Token}
    (hsound : ChainSound column (step :: rest) cache)
    (hfresh : fresh ∉ (Derivation.held column (step :: rest) ++ cache.kept).map Shared.token) :
    ∃ token after, step.apply column fresh cache =
        (fun derived ↦ (derived, after)) <$> column.map step.mapping step.preferView token ∧
      ∀ derived, column.map step.mapping step.preferView token = .ok derived →
        ChainSound derived rest after := by
  have hnext : step.mapping ∈ Derivation.held column (step :: rest) := by simp [Derivation.held]
  unfold Derivation.apply
  by_cases hcached : step.cached
  · have hanswers : cache.Answers column.mapping? step.mapping fresh := by
      intro current hcurrent
      have hheld : current ∈ Derivation.held column (step :: rest) := by
        simp [Derivation.held, hcurrent]
      refine MappingCache.value_compose hsound.truthful (hsound.coherent.mono ?_)
      intro mapping hmem
      rcases List.mem_cons.mp hmem with rfl | hmem
      · exact List.mem_append_left _ hheld
      · rcases List.mem_cons.mp hmem with rfl | hmem
        · exact List.mem_append_left _ hnext
        · exact List.mem_append_right _ hmem
    refine ⟨(cache.consult column.mapping? step.mapping fresh).1,
      (cache.consult column.mapping? step.mapping fresh).2, ?_, fun derived hmap ↦ ?_⟩
    · rw [if_pos hcached, Column.mapCached_eq step.preferView hanswers]
    · refine ChainSound.of_map hmap ?_ ?_ ?_
      · intro hnone
        rw [hnone]
        exact hsound.coherent
      · intro current hcurrent
        have hheld : current ∈ Derivation.held column (step :: rest) := by
          simp [Derivation.held, hcurrent]
        have hcomposed := MappingCache.coherent_compose hsound.coherent hheld hnext hfresh
        have hvalue := hanswers current hcurrent
        rw [hcurrent]
        simp only [MappingCache.consult, ← hvalue]
        exact hcomposed
      · cases hcurrent : column.mapping? with
        | none => exact hsound.truthful
        | some current => exact MappingCache.truthful_compose hsound.truthful
  · refine ⟨fresh, cache, ?_, fun derived hmap ↦ ?_⟩
    · rw [if_neg hcached]
      cases column.map step.mapping step.preferView fresh <;> rfl
    · refine ChainSound.of_map hmap (fun _ ↦ hsound.coherent) ?_ hsound.truthful
      intro _ _
      rw [List.cons_append]
      exact hsound.coherent.cons hfresh

/-- One derivation, cached or not: it succeeds, shows what its mapping shows, and leaves a sound
chain. -/
theorem Derivation.exists_apply {step : Derivation} {rest : List Derivation} {column : Column}
    {cache : MappingCache} {fresh : Token} (hsound : ChainSound column (step :: rest) cache)
    (hfresh : fresh ∉ (Derivation.held column (step :: rest) ++ cache.kept).map Shared.token)
    (hvalid : column.data.Valid column.type) (hsize : step.mapping.value.size ≤ rowLimit) :
    ∃ derived after, step.apply column fresh cache = .ok (derived, after) ∧
      derived.type = column.type ∧
      ColumnData.Shows step.mapping.value derived.data column.data ∧
      ChainSound derived rest after := by
  obtain ⟨token, after, happly, hnext⟩ := Derivation.exists_apply_eq_map hsound hfresh
  obtain ⟨derived, hmap, htype, hshows⟩ := Column.exists_map step.preferView token hvalid hsize
  refine ⟨derived, after, ?_, htype, hshows, hnext derived hmap⟩
  rw [happly, hmap]
  rfl

/-! ### Whole chains -/

/-- The source mappings of a chain. -/
def Derivation.mappings (steps : List Derivation) : List Mapping := steps.map (·.mapping.value)

/-- Column data that reads what mappings show of other data, one after the other. -/
structure ColumnData.Traces (mappings : List Mapping) (derived source : ColumnData) : Prop where
  size : derived.size = Mapping.lastSize source.size mappings
  valueAt : ∀ row < derived.size, derived.valueAt row =
    match Mapping.trace? source.size mappings row with
    | some place => source.valueAt place
    | none => .missing

theorem ColumnData.Traces.refl (source : ColumnData) : Traces [] source source := by
  refine ⟨rfl, ?_⟩
  intro row hrow
  rw [Mapping.trace?, if_pos hrow]

/-- One more mapping in front. -/
theorem ColumnData.Traces.cons {mapping : Mapping} {rest : List Mapping}
    {final derived source : ColumnData} {type : ColumnType} (h : Traces rest final derived)
    (hshows : Shows mapping derived source) (hvalid : source.Valid type) :
    Traces (mapping :: rest) final source := by
  constructor
  · rw [Mapping.lastSize_cons, h.size, hshows.size]
  · intro row hrow
    rw [h.valueAt row hrow, hshows.size, Mapping.trace?]
    cases hshown : Mapping.trace? mapping.size rest row with
    | none => rfl
    | some shown =>
      have hlt : shown < mapping.size := Mapping.lt_of_trace? hshown
      simp only [Option.bind_some]
      rw [hshows.valueAt hvalid hlt]
      cases mapping.resolve? shown source.size with
      | none => rfl
      | some place => cases place <;> rfl

/-- From a sound chain on, all steps succeed. -/
theorem Column.exists_deriveAll (allocator : Allocator) {steps : List Derivation} {column : Column}
    {cache : MappingCache} (time : Nat) (hsound : ChainSound column steps cache)
    (hvalid : column.data.Valid column.type)
    (hsize : ∀ step ∈ steps, step.mapping.value.size ≤ rowLimit) :
    ∃ final after, column.deriveAll allocator time steps cache = .ok (final, after) ∧
      final.type = column.type ∧
      ColumnData.Traces (Derivation.mappings steps) final.data column.data := by
  induction steps generalizing column cache time with
  | nil => exact ⟨column, cache, rfl, rfl, .refl column.data⟩
  | cons step rest ih =>
    obtain ⟨derived, after, happly, htype, hshows, hsound'⟩ := Derivation.exists_apply hsound
      (allocator.choose_notMem time _) hvalid (hsize step List.mem_cons_self)
    have hvalid' : derived.data.Valid derived.type := by
      rw [htype]
      exact hshows.valid hvalid
    obtain ⟨final, last, hrest, hfinal, htraces⟩ := ih (time + 1) hsound' hvalid' fun other hother ↦
      hsize other (List.mem_cons_of_mem _ hother)
    refine ⟨final, last, ?_, hfinal.trans htype, htraces.cons hshows hvalid⟩
    unfold deriveAll
    simp only [happly]
    exact hrest

/-- The single derivation through the composition of all mappings traces the same rows. -/
theorem Column.exists_map_composeAll {column : Column} (first : Mapping) (rest : List Mapping)
    (preferView : Bool) (token fresh : Token) (hvalid : column.data.Valid column.type)
    (hsize : Mapping.lastSize first.size rest ≤ rowLimit) :
    ∃ direct, column.map ⟨token, Mapping.composeAll first rest⟩ preferView fresh = .ok direct ∧
      direct.type = column.type ∧ ColumnData.Traces (first :: rest) direct.data column.data := by
  rw [← Mapping.size_composeAll] at hsize
  obtain ⟨direct, hmap, htype, hshows⟩ := @Column.exists_map column
    ⟨token, Mapping.composeAll first rest⟩ preferView fresh hvalid hsize
  refine ⟨direct, hmap, htype, ?_, ?_⟩
  · rw [hshows.size, Mapping.lastSize_cons]
    exact Mapping.size_composeAll first rest
  · intro row hrow
    rw [hshows.size] at hrow
    rw [hshows.valueAt hvalid hrow, ← Mapping.resolve?_composeAll]
    cases (Mapping.composeAll first rest).resolve? row column.data.size with
    | none => rfl
    | some shown => cases shown <;> rfl

/-- What a traced column reads. -/
theorem ColumnData.Traces.get_eq {mappings : List Mapping} {final column : Column}
    (h : ColumnData.Traces mappings final.data column.data) {row : Nat} (hrow : row < final.size) :
    final.get row =
      match Mapping.trace? column.size mappings row with
      | some source => column.get source
      | none => .ok .missing := by
  rw [Column.get_of_lt hrow, h.valueAt row hrow]
  change _ = match Mapping.trace? column.data.size mappings row with
    | some source => column.get source
    | none => .ok .missing
  cases hsource : Mapping.trace? column.data.size mappings row with
  | none => rfl
  | some source => exact (Column.get_of_lt (Mapping.lt_of_trace? hsource)).symm

/-- Whatever the cache served before, a chain of derivations succeeds and reads, row by row, what
the mappings show one after the other; deriving once through their composition reads the same. -/
theorem Column.deriveAll_get_eq_trace (allocator : Allocator) (history : List HeapCall)
    {column : Column} (hcolumn : Constructed column) {steps : List Derivation}
    (hview : ∀ mapping, column.mapping? = some mapping →
      mapping ∈ (Heap.run allocator history).held)
    (hsteps : ∀ step ∈ steps, step.mapping ∈ (Heap.run allocator history).held ∧
      step.mapping.value.size ≤ rowLimit) :
    ∃ final after, column.deriveAll allocator (Heap.run allocator history).allocations steps
        (Heap.run allocator history).cache = .ok (final, after) ∧
      final.type = column.type ∧
      final.size = Mapping.lastSize column.size (Derivation.mappings steps) ∧
      (∀ row < final.size, final.get row =
        match Mapping.trace? column.size (Derivation.mappings steps) row with
        | some source => column.get source
        | none => .ok .missing) ∧
      ∀ first rest, Derivation.mappings steps = first :: rest → ∀ preferView token fresh,
        ∃ direct, column.map ⟨token, Mapping.composeAll first rest⟩ preferView fresh = .ok direct ∧
          direct.type = column.type ∧ direct.size = final.size ∧
          ∀ row, direct.get row = final.get row := by
  have hheap := @Heap.sound_run allocator history
  have hvalid := hcolumn.valid
  have hsound : ChainSound column steps (Heap.run allocator history).cache := by
    refine ⟨hheap.coherent.mono ?_, hheap.truthful⟩
    intro mapping hmapping
    rcases List.mem_append.mp hmapping with hheld | hkept
    · apply List.mem_append_left
      rcases List.mem_append.mp hheld with hshown | hstep
      · exact hview mapping (Option.mem_toList.mp hshown)
      · obtain ⟨step, hmem, rfl⟩ := List.mem_map.mp hstep
        exact (hsteps step hmem).1
    · exact List.mem_append_right _ hkept
  obtain ⟨final, after, hderive, htype, htraces⟩ := Column.exists_deriveAll allocator
    (Heap.run allocator history).allocations hsound hvalid fun step hstep ↦ (hsteps step hstep).2
  refine ⟨final, after, hderive, htype, htraces.size, fun row hrow ↦ htraces.get_eq hrow, ?_⟩
  intro first rest hmappings preferView token fresh
  have hlast : Mapping.lastSize first.size rest ≤ rowLimit := by
    have hbound (mapping : Mapping) (hmem : mapping ∈ first :: rest) : mapping.size ≤ rowLimit := by
      rw [← hmappings] at hmem
      obtain ⟨step, hstep, rfl⟩ := List.mem_map.mp hmem
      exact (hsteps step hstep).2
    exact Mapping.lastSize_le (hbound first List.mem_cons_self) fun mapping hmem ↦
      hbound mapping (List.mem_cons_of_mem _ hmem)
  obtain ⟨direct, hmap, htype', htraces'⟩ :=
    Column.exists_map_composeAll first rest preferView token fresh hvalid hlast
  rw [hmappings] at htraces
  have hsize : direct.size = final.size := htraces'.size.trans htraces.size.symm
  refine ⟨direct, hmap, htype', hsize, ?_⟩
  intro row
  by_cases hrow : row < final.size
  · rw [htraces.get_eq hrow, htraces'.get_eq (hsize ▸ hrow)]
  · rw [Column.get_eq, Column.get_eq, hsize, if_pos (Nat.not_lt.mp hrow),
      if_pos (Nat.not_lt.mp hrow)]

/-- Two cached views of a column of two numbers: the second row of the last view shows the first
number, the others are outside what they index. -/
theorem Column.deriveAll_get_two_views :
    ∃ final after,
      (real [⟨4607182418800017408⟩, ⟨4611686018427387904⟩]).deriveAll .above 2
          [⟨⟨1, .ofList [5, 0]⟩, true, true⟩, ⟨⟨2, .ofList [0, 1, -1]⟩, true, true⟩] .empty =
        .ok (final, after) ∧
      final.get 0 = .ok .missing ∧ final.get 1 = .ok (.number ⟨4607182418800017408⟩) ∧
      final.get 2 = .ok .missing := by
  have hsteps : ∀ step ∈ [(⟨⟨1, .ofList [5, 0]⟩, true, true⟩ : Derivation),
      ⟨⟨2, .ofList [0, 1, -1]⟩, true, true⟩],
      step.mapping ∈ (Heap.run .above
        [.create (.ofList [5, 0]), .create (.ofList [0, 1, -1])]).held ∧
      step.mapping.value.size ≤ rowLimit := by
    intro step hstep
    simp only [List.mem_cons, List.not_mem_nil, or_false] at hstep
    rcases hstep with rfl | rfl
    · exact ⟨List.mem_cons_of_mem _ List.mem_cons_self, by decide⟩
    · exact ⟨List.mem_cons_self, by decide⟩
  obtain ⟨final, after, hderive, -, hsize, hget, -⟩ := deriveAll_get_eq_trace .above
    [.create (.ofList [5, 0]), .create (.ofList [0, 1, -1])]
    (.real [⟨4607182418800017408⟩, ⟨4611686018427387904⟩]) nofun hsteps
  have hrows : final.size = 3 := hsize
  refine ⟨final, after, hderive, ?_, ?_, ?_⟩
  · exact hget 0 (by omega)
  · exact hget 1 (by omega)
  · exact hget 2 (by omega)

end Columnar
