import Columnar.Proofs.Column.Reaching
import Columnar.Proofs.Mapping.Sharing

/-!
# Deriving the same again

A cache never forgets a composition while it is not cleared (`MappingCache.Extends`), and a pair
that was composed once is answered with the very same mapping from then on. So a chain of
derivations that is applied again asks for pairs that the cache knows: it gets the same columns, and
the cache only counts hits (`deriveEach_again`). Only mappings are asked for, so a chain of views is
the same for all columns that start from the same mapping (`KeepsViews.exists_deriveEach`).
-/

set_option autoImplicit false
set_option relaxedAutoImplicit false

namespace Columnar

/-! ### What a cache remembers -/

namespace MappingCache

/-- Whatever is found in the cache is found later, with the same answer. -/
def Extends (cache later : MappingCache) : Prop :=
  ∀ base next stored, cache.find? base next = some stored → later.find? base next = some stored

/-- The cache after so many more hits. -/
def hit (cache : MappingCache) (count : Nat) : MappingCache :=
  { cache with hits := cache.hits + count }

variable {cache middle later : MappingCache} {base next : Shared Mapping}

theorem Extends.refl (cache : MappingCache) : cache.Extends cache := fun _ _ _ h ↦ h

theorem Extends.trans (h : cache.Extends middle) (hlater : middle.Extends later) :
    cache.Extends later :=
  fun base next stored hfound ↦ hlater base next stored (h base next stored hfound)

theorem Extends.hit (h : cache.Extends later) (count : Nat) : cache.Extends (later.hit count) := h

/-- Composing adds a pair that was not found before, if anything. -/
theorem extends_compose (cache : MappingCache) (base next : Shared Mapping) (fresh : Token) :
    cache.Extends (cache.compose base next fresh).2 := by
  rcases compose_cases cache base next fresh with ⟨stored, -, hcompose⟩ | ⟨hnone, hcompose⟩
  · rw [hcompose]
    exact .refl cache
  · rw [hcompose]
    intro first second stored hfound
    have hother : (base.same first && next.same second) = false := by
      apply Bool.eq_false_iff.mpr
      intro hsame
      simp only [Shared.same, Bool.and_eq_true, beq_iff_eq] at hsame
      unfold find? Shared.same at hnone hfound
      rw [hsame.1, hsame.2, hfound] at hnone
      contradiction
    unfold find?
    rw [List.find?_cons, hother]
    exact hfound

/-- A pair that was composed is answered again with the same mapping, and stored only once. -/
theorem compose_again {fresh : Token} (h : (cache.compose base next fresh).2.Extends later)
    (again : Token) :
    later.compose base next again = ((cache.compose base next fresh).1, later.hit 1) := by
  have hfound : ∃ stored, (cache.compose base next fresh).2.find? base next = some stored ∧
      stored.composed = (cache.compose base next fresh).1 := by
    rcases compose_cases cache base next fresh with ⟨stored, hstored, hcompose⟩ | ⟨-, hcompose⟩
    · rw [hcompose]
      exact ⟨stored, hstored, rfl⟩
    · rw [hcompose]
      refine ⟨⟨base, next, ⟨fresh, base.value.compose next.value⟩⟩, ?_, rfl⟩
      unfold find?
      rw [List.find?_cons]
      simp [Shared.same]
  obtain ⟨stored, hstored, hcomposed⟩ := hfound
  rw [← hcomposed]
  unfold compose
  rw [h base next stored hstored]
  rfl

/-- The mapping of a view that is derived through `next`, and the cache from then on. A dense source
asks for no composition. -/
def advance (cache : MappingCache) (current? : Option (Shared Mapping)) (next : Shared Mapping)
    (fresh : Token) : Shared Mapping × MappingCache :=
  match current? with
  | some current => cache.compose current next fresh
  | none => (next, cache)

/-- The hits of asking for a composition that is known. -/
def hitsOf (current? : Option (Shared Mapping)) : Nat := if current?.isSome then 1 else 0

theorem extends_advance (cache : MappingCache) (current? : Option (Shared Mapping))
    (next : Shared Mapping) (fresh : Token) :
    cache.Extends (cache.advance current? next fresh).2 := by
  cases current? with
  | none => exact .refl cache
  | some current => exact extends_compose cache current next fresh

theorem advance_again {current? : Option (Shared Mapping)} {fresh : Token}
    (h : (cache.advance current? next fresh).2.Extends later) (again : Token) :
    later.advance current? next again =
      ((cache.advance current? next fresh).1, later.hit (hitsOf current?)) := by
  cases current? with
  | none => rfl
  | some current => exact compose_again h again

end MappingCache

/-! ### One derivation -/

section OneStep

variable {cache after later : MappingCache} {mapping : Shared Mapping} {fresh : Token}

theorem wrap_eq_ok {A B : Type} (wrap : A → B) {action : StateT MappingCache Outcome A} {result : A}
    (h : action cache = .ok (result, after)) :
    (wrap <$> action) cache = .ok (wrap result, after) := by
  show (action cache >>= fun (result, after) ↦
    (.ok (wrap result, after) : Outcome (B × MappingCache))) = _
  rw [h]
  rfl

/-- A layout that is not sparse becomes a view through the mapping that the cache gives, or is
gathered through it. -/
theorem Layout.mapCached_of_not_sparse {S C : Type} [Cell C] [Store S C] {layout : Layout S C}
    (h : layout.arrangement ≠ .sparse) (view : Bool) :
    layout.mapCached mapping view fresh cache =
      .ok (viewOrGather layout.prototype (cache.advance layout.mapping? mapping fresh).1 view,
        (cache.advance layout.mapping? mapping fresh).2) := by
  cases layout with
  | sparse source => exact absurd rfl h
  | _ => rfl

/-- Deriving a layout through the cache succeeds, as it does without. -/
theorem Layout.exists_mapCached {S C : Type} [Cell C] [Store S C] [LawfulStore S]
    (layout : Layout S C) (view : Bool) (fresh : Token) (cache : MappingCache)
    (hsize : mapping.value.size ≤ rowLimit) (hdefault : layout.TakesDefault) :
    ∃ derived after, layout.mapCached mapping view fresh cache = .ok (derived, after) := by
  by_cases hsparse : layout.arrangement = .sparse
  · cases layout with
    | sparse source =>
      obtain ⟨derived, hderived, -⟩ := Layout.exists_map view fresh hsize hdefault
      refine ⟨derived, cache, ?_⟩
      show ((Layout.sparse source).map mapping view fresh >>= fun derived ↦
        (.ok (derived, cache) : Outcome (Layout S C × MappingCache))) = _
      rw [hderived]
      rfl
    | _ => contradiction
  · exact ⟨_, _, mapCached_of_not_sparse hsparse view⟩

/-- Deriving a layout again gives the same layout; the cache counts a hit if it is a view. -/
theorem Layout.mapCached_again {S C : Type} [Cell C] [Store S C] {layout derived : Layout S C}
    {view : Bool} (h : layout.mapCached mapping view fresh cache = .ok (derived, after)) :
    cache.Extends after ∧ ∀ later, after.Extends later → ∀ again,
      layout.mapCached mapping view again later =
        .ok (derived, later.hit (MappingCache.hitsOf layout.mapping?)) := by
  by_cases hsparse : layout.arrangement = .sparse
  · cases layout with
    | sparse source =>
      obtain ⟨result, hresult, h⟩ := Outcome.bind_eq_ok_iff.mp h
      cases h
      refine ⟨.refl cache, fun later _ again ↦ ?_⟩
      show ((Layout.sparse source).map mapping view again >>= fun derived ↦
        (.ok (derived, later) : Outcome (Layout S C × MappingCache))) = _
      change (Layout.sparse source).map mapping view again = .ok derived at hresult
      rw [hresult]
      rfl
    | _ => contradiction
  · rw [mapCached_of_not_sparse hsparse] at h
    cases h
    refine ⟨cache.extends_advance _ mapping fresh, fun later hlater again ↦ ?_⟩
    rw [mapCached_of_not_sparse hsparse, MappingCache.advance_again hlater]

/-- A derivation of column data is one of its layout. -/
theorem ColumnData.exists_layout_of_traverse
    {f : {S C : Type} → [Cell C] → [Store S C] → Layout S C →
      StateT MappingCache Outcome (Layout S C)} {data derived : ColumnData}
    (h : data.traverse f cache = .ok (derived, after)) :
    ∃ (S C : Type) (_ : Cell C) (_ : Store S C) (layout result : Layout S C),
      f layout cache = .ok (result, after) ∧ layout.mapping? = data.mapping? ∧
      ∀ (g : {S C : Type} → [Cell C] → [Store S C] → Layout S C →
        StateT MappingCache Outcome (Layout S C)) (later last : MappingCache),
        g layout later = .ok (result, last) → data.traverse g later = .ok (derived, last) := by
  have hlayout {S C : Type} [Cell C] [Store S C] (layout : Layout S C)
      (wrap : Layout S C → ColumnData)
      (h : (wrap <$> f layout : StateT MappingCache Outcome ColumnData) cache =
        .ok (derived, after)) :
      ∃ result, f layout cache = .ok (result, after) ∧
        ∀ (action : StateT MappingCache Outcome (Layout S C)) (later last : MappingCache),
          action later = .ok (result, last) → (wrap <$> action) later = .ok (derived, last) := by
    obtain ⟨⟨result, last⟩, hresult, h⟩ := Outcome.bind_eq_ok_iff.mp h
    cases h
    exact ⟨result, hresult, fun action later last haction ↦ wrap_eq_ok wrap haction⟩
  cases data with
  | numbers layout =>
    obtain ⟨result, hresult, hagain⟩ := hlayout layout _ h
    exact ⟨_, _, _, _, layout, result, hresult, rfl, fun g ↦ hagain (g layout)⟩
  | times layout =>
    obtain ⟨result, hresult, hagain⟩ := hlayout layout _ h
    exact ⟨_, _, _, _, layout, result, hresult, rfl, fun g ↦ hagain (g layout)⟩
  | instants layout =>
    obtain ⟨result, hresult, hagain⟩ := hlayout layout _ h
    exact ⟨_, _, _, _, layout, result, hresult, rfl, fun g ↦ hagain (g layout)⟩
  | categories layout dictionary =>
    obtain ⟨result, hresult, hagain⟩ := hlayout layout _ h
    exact ⟨_, _, _, _, layout, result, hresult, rfl, fun g ↦ hagain (g layout)⟩
  | objects layout =>
    obtain ⟨result, hresult, hagain⟩ := hlayout layout _ h
    exact ⟨_, _, _, _, layout, result, hresult, rfl, fun g ↦ hagain (g layout)⟩

theorem Column.mapCached_of_traverse {column : Column} {preferView : Bool} {data : ColumnData}
    (h : (column.data.traverse fun layout ↦ layout.mapCached mapping
      (preferView && column.viewPaysOff mapping.value) fresh) cache = .ok (data, after)) :
    column.mapCached mapping preferView fresh cache = .ok (⟨column.type, data⟩, after) := by
  unfold mapCached
  show ((column.data.traverse fun layout ↦ layout.mapCached mapping
    (preferView && column.viewPaysOff mapping.value) fresh) cache >>= fun (data, after) ↦
      (.ok (⟨column.type, data⟩, after) : Outcome (Column × MappingCache))) = _
  rw [h]
  rfl

/-- Deriving a column again gives the same column; the cache counts a hit if it is a view. -/
theorem Column.mapCached_again {column derived : Column} {preferView : Bool}
    (h : column.mapCached mapping preferView fresh cache = .ok (derived, after)) :
    cache.Extends after ∧ ∀ later, after.Extends later → ∀ again,
      column.mapCached mapping preferView again later =
        .ok (derived, later.hit (MappingCache.hitsOf column.mapping?)) := by
  obtain ⟨⟨data, last⟩, hdata, h⟩ := Outcome.bind_eq_ok_iff.mp h
  cases h
  obtain ⟨S, C, _, _, layout, result, hlayout, hmapping, htraverse⟩ :=
    ColumnData.exists_layout_of_traverse hdata
  obtain ⟨hextends, hagain⟩ := Layout.mapCached_again hlayout
  refine ⟨hextends, fun later hlater again ↦ ?_⟩
  have hshown : layout.mapping? = column.mapping? := hmapping
  apply Column.mapCached_of_traverse
  rw [← hshown]
  exact htraverse (fun layout ↦ layout.mapCached mapping
    (preferView && column.viewPaysOff mapping.value) again) later _ (hagain later hlater again)

end OneStep

/-! ### Chains through the cache -/

/-- A mapping to derive through, and whether a view is preferred. -/
structure CachedStep where
  mapping : Shared Mapping
  preferView : Bool

/-- The columns of a chain, each derived from the one before and all through the cache. A step with
`n` more to go may take the token `fresh n`. -/
def Column.deriveEach (fresh : Nat → Token) :
    List CachedStep → Column → StateT MappingCache Outcome (List Column)
  | [], _ => pure []
  | step :: rest, column => do
    let derived ← column.mapCached step.mapping step.preferView (fresh rest.length)
    let columns ← deriveEach fresh rest derived
    return derived :: columns

/-- The columns that the steps of a chain derive from. -/
def Column.receivers (column : Column) (columns : List Column) : List Column :=
  (column :: columns).dropLast

/-- A derivation through the cache by anyone. -/
structure CacheCall where
  column : Column
  step : CachedStep
  fresh : Token

namespace MappingCache

/-- The cache after a derivation, which may be refused. -/
def serve (cache : MappingCache) (call : CacheCall) : MappingCache :=
  match call.column.mapCached call.step.mapping call.step.preferView call.fresh cache with
  | .ok (_, after) => after
  | .error _ => cache

def serveAll (cache : MappingCache) (calls : List CacheCall) : MappingCache :=
  calls.foldl serve cache

theorem extends_serveAll (cache : MappingCache) (calls : List CacheCall) :
    cache.Extends (cache.serveAll calls) := by
  induction calls generalizing cache with
  | nil => exact .refl cache
  | cons call rest ih =>
    refine Extends.trans ?_ (ih (cache.serve call))
    unfold serve
    cases hderived : call.column.mapCached call.step.mapping call.step.preferView call.fresh
      cache with
    | error fault => exact .refl cache
    | ok result => exact (Column.mapCached_again hderived).1

end MappingCache

namespace Column

variable {column : Column} {columns : List Column} {step : CachedStep}
  {steps rest : List CachedStep} {fresh : Nat → Token} {cache after : MappingCache}

/-- A chain is its first step and the chain of the others. -/
theorem deriveEach_cons_eq_ok_iff :
    column.deriveEach fresh (step :: rest) cache = .ok (columns, after) ↔
      ∃ derived middle tail,
        column.mapCached step.mapping step.preferView (fresh rest.length) cache =
          .ok (derived, middle) ∧
        derived.deriveEach fresh rest middle = .ok (tail, after) ∧ columns = derived :: tail := by
  show (column.mapCached step.mapping step.preferView (fresh rest.length) cache >>=
    fun first ↦ first.1.deriveEach fresh rest first.2 >>= fun others ↦
      (.ok (first.1 :: others.1, others.2) : Outcome (List Column × MappingCache))) = _ ↔ _
  rw [Outcome.bind_eq_ok_iff]
  constructor
  · rintro ⟨⟨derived, middle⟩, hderived, h⟩
    obtain ⟨⟨tail, last⟩, htail, h⟩ := Outcome.bind_eq_ok_iff.mp h
    cases h
    exact ⟨derived, middle, tail, hderived, htail, rfl⟩
  · rintro ⟨derived, middle, tail, hderived, htail, rfl⟩
    refine ⟨(derived, middle), hderived, ?_⟩
    simp only [htail]
    rfl

/-- The columns with a mapping are the views. -/
theorem isSome_mapping?_iff : column.mapping?.isSome ↔ column.arrangement = .mapped := by
  obtain ⟨type, data⟩ := column
  have hlayout {S C : Type} (layout : Layout S C) :
      layout.mapping?.isSome ↔ layout.arrangement = .mapped := by
    cases layout <;> simp [Layout.arrangement, Layout.mapping?]
  cases data with
  | numbers layout => exact hlayout layout
  | times layout => exact hlayout layout
  | instants layout => exact hlayout layout
  | categories layout dictionary => exact hlayout layout
  | objects layout => exact hlayout layout

theorem hitsOf_mapping? (column : Column) :
    MappingCache.hitsOf column.mapping? = if column.arrangement = .mapped then 1 else 0 := by
  simp only [MappingCache.hitsOf, isSome_mapping?_iff]

/-- A chain that is applied again gives the same columns, whatever the cache served in between. The
cache stores nothing new, and counts a hit for every view that is derived from. -/
theorem deriveEach_again (h : column.deriveEach fresh steps cache = .ok (columns, after)) :
    cache.Extends after ∧ ∀ later, after.Extends later → ∀ again,
      column.deriveEach again steps later = .ok (columns,
        later.hit ((column.receivers columns).countP fun receiver ↦
          receiver.arrangement = .mapped)) := by
  induction steps generalizing column columns cache with
  | nil =>
    cases h
    exact ⟨.refl _, fun later _ again ↦ rfl⟩
  | cons step rest ih =>
    obtain ⟨derived, middle, tail, hderived, htail, rfl⟩ := deriveEach_cons_eq_ok_iff.mp h
    obtain ⟨hfirst, hagain⟩ := mapCached_again hderived
    obtain ⟨hrest, htailAgain⟩ := ih htail
    refine ⟨hfirst.trans hrest, fun later hlater again ↦ ?_⟩
    apply deriveEach_cons_eq_ok_iff.mpr
    refine ⟨derived, _, tail, hagain later (hrest.trans hlater) (again rest.length), ?_, rfl⟩
    rw [htailAgain _ (hlater.hit _) again]
    have hcount : (column.receivers (derived :: tail)).countP (fun receiver ↦
        receiver.arrangement = .mapped) = MappingCache.hitsOf column.mapping? +
          (derived.receivers tail).countP fun receiver ↦ receiver.arrangement = .mapped := by
      rw [hitsOf_mapping?, Nat.add_comm]
      show (column :: (derived :: tail).dropLast).countP _ = _
      rw [List.countP_cons]
      simp only [decide_eq_true_eq]
      rfl
    rw [hcount]
    simp only [MappingCache.hit, Nat.add_assoc]

/-! ### Chains that succeed -/

/-- Deriving a valid column through the cache succeeds. -/
theorem exists_mapCached {mapping : Shared Mapping} (preferView : Bool) (fresh : Token)
    (cache : MappingCache) (hvalid : column.data.Valid column.type)
    (hsize : mapping.value.size ≤ rowLimit) :
    ∃ derived after, column.mapCached mapping preferView fresh cache = .ok (derived, after) := by
  obtain ⟨view, hview⟩ : ∃ view, (preferView && column.viewPaysOff mapping.value) = view := ⟨_, rfl⟩
  have hdefault := hvalid.takesDefault
  have hlayout {S C : Type} [Cell C] [Store S C] [LawfulStore S] (layout : Layout S C)
      (wrap : Layout S C → ColumnData) (hdefault : layout.TakesDefault) :
      ∃ data after, (wrap <$> layout.mapCached mapping view fresh :
        StateT MappingCache Outcome ColumnData) cache = .ok (data, after) := by
    obtain ⟨derived, after, hderived⟩ := layout.exists_mapCached view fresh cache hsize hdefault
    exact ⟨wrap derived, after, wrap_eq_ok wrap hderived⟩
  have hdata : ∃ data after, (column.data.traverse fun layout ↦
      layout.mapCached mapping view fresh) cache = .ok (data, after) := by
    cases hcase : column.data with
    | numbers layout => exact hlayout layout .numbers (by rwa [hcase] at hdefault)
    | times layout => exact hlayout layout .times (by rwa [hcase] at hdefault)
    | instants layout => exact hlayout layout .instants (by rwa [hcase] at hdefault)
    | categories layout dictionary =>
      exact hlayout layout (.categories · dictionary) (by rwa [hcase] at hdefault)
    | objects layout => exact hlayout layout .objects (by rwa [hcase] at hdefault)
  obtain ⟨data, after, hdata⟩ := hdata
  exact ⟨_, after, mapCached_of_traverse (by rw [hview]; exact hdata)⟩

/-- A chain from a reachable column succeeds. -/
theorem Reachable.exists_deriveEach (h : column.Reachable) (fresh : Nat → Token)
    (cache : MappingCache) (hsize : ∀ step ∈ steps, step.mapping.value.size ≤ rowLimit) :
    ∃ columns after, column.deriveEach fresh steps cache = .ok (columns, after) := by
  induction steps generalizing column cache with
  | nil => exact ⟨[], cache, rfl⟩
  | cons step rest ih =>
    obtain ⟨derived, middle, hderived⟩ := exists_mapCached step.preferView (fresh rest.length)
      cache h.valid (hsize step List.mem_cons_self)
    obtain ⟨columns, after, hrest⟩ := ih (h.mapCached hderived) middle fun other hother ↦
      hsize other (List.mem_cons_of_mem _ hother)
    exact ⟨derived :: columns, after,
      deriveEach_cons_eq_ok_iff.mpr ⟨derived, middle, columns, hderived, hrest, rfl⟩⟩

/-! ### Chains of views -/

/-- Views of the column are never gathered: it holds no numbers, and it is not sparse. -/
structure KeepsViews (column : Column) : Prop where
  not_numbers : ∀ layout, column.data ≠ .numbers layout
  not_sparse : column.arrangement ≠ .sparse

/-- Its views go through the mappings that the cache gives. -/
theorem KeepsViews.exists_mapCached (h : column.KeepsViews) (mapping : Shared Mapping)
    (fresh : Token) (cache : MappingCache) :
    ∃ derived, column.mapCached mapping true fresh cache =
        .ok (derived, (cache.advance column.mapping? mapping fresh).2) ∧
      derived.mapping? = some (cache.advance column.mapping? mapping fresh).1 ∧
      derived.KeepsViews := by
  obtain ⟨type, data⟩ := column
  have hlayout {S C : Type} [Cell C] [Store S C] (layout : Layout S C)
      (wrap : Layout S C → ColumnData) (hsparse : layout.arrangement ≠ .sparse) :
      (wrap <$> layout.mapCached mapping true fresh : StateT MappingCache Outcome ColumnData)
        cache = .ok (wrap (.mapped layout.prototype
          (cache.advance layout.mapping? mapping fresh).1),
          (cache.advance layout.mapping? mapping fresh).2) :=
    wrap_eq_ok wrap (Layout.mapCached_of_not_sparse hsparse true)
  cases data with
  | numbers layout => exact absurd rfl (h.not_numbers layout)
  | times layout =>
    exact ⟨_, mapCached_of_traverse (hlayout layout .times h.not_sparse), rfl, nofun, nofun⟩
  | instants layout =>
    exact ⟨_, mapCached_of_traverse (hlayout layout .instants h.not_sparse), rfl, nofun, nofun⟩
  | categories layout dictionary =>
    exact ⟨_, mapCached_of_traverse (hlayout layout (.categories · dictionary) h.not_sparse), rfl,
      nofun, nofun⟩
  | objects layout =>
    exact ⟨_, mapCached_of_traverse (hlayout layout .objects h.not_sparse), rfl, nofun, nofun⟩

/-- A chain of views asks the cache for the mappings only, so another column that starts from the
same mapping gets the same ones without anything new being stored. -/
theorem KeepsViews.exists_deriveEach (h : column.KeepsViews)
    (hviews : ∀ step ∈ steps, step.preferView = true) (fresh : Nat → Token)
    (cache : MappingCache) :
    ∃ (columns : List Column) (after : MappingCache) (views : List (Shared Mapping)),
      column.deriveEach fresh steps cache = .ok (columns, after) ∧
      columns.map mapping? = views.map some ∧ views.length = steps.length ∧
      ∀ other : Column, other.KeepsViews → other.mapping? = column.mapping? →
        ∀ later, after.Extends later → ∀ again, ∃ others last,
          other.deriveEach again steps later = .ok (others, last) ∧
          others.map mapping? = views.map some ∧ last.size = later.size := by
  induction steps generalizing column cache with
  | nil => exact ⟨[], cache, [], rfl, rfl, rfl, fun _ _ _ later _ _ ↦ ⟨[], later, rfl, rfl, rfl⟩⟩
  | cons step rest ih =>
    obtain ⟨derived, hderived, hview, hkeeps⟩ := h.exists_mapCached step.mapping
      (fresh rest.length) cache
    obtain ⟨columns, after, views, hrest, hmappings, hlength, hothers⟩ := ih hkeeps
      (fun other hother ↦ hviews other (List.mem_cons_of_mem _ hother))
      (cache.advance column.mapping? step.mapping (fresh rest.length)).2
    have hprefers := hviews step List.mem_cons_self
    have hextends := (deriveEach_again hrest).1
    refine ⟨derived :: columns, after,
      (cache.advance column.mapping? step.mapping (fresh rest.length)).1 :: views, ?_, ?_,
      congrArg (· + 1) hlength, ?_⟩
    · apply deriveEach_cons_eq_ok_iff.mpr
      rw [hprefers]
      exact ⟨derived, _, columns, hderived, hrest, rfl⟩
    · rw [List.map_cons, List.map_cons, hview, hmappings]
    · intro other hother hsame later hlater again
      obtain ⟨twin, htwin, htwinView, htwinKeeps⟩ := hother.exists_mapCached step.mapping
        (again rest.length) later
      rw [hsame, MappingCache.advance_again (hextends.trans hlater)] at htwin htwinView
      obtain ⟨others, last, hrestOther, hothersMappings, hsize⟩ := hothers twin htwinKeeps
        (htwinView.trans hview.symm) _ (hlater.hit _) again
      refine ⟨twin :: others, last, ?_, ?_, hsize⟩
      · apply deriveEach_cons_eq_ok_iff.mpr
        rw [hprefers]
        exact ⟨twin, _, others, htwin, hrestOther, rfl⟩
      · rw [List.map_cons, List.map_cons, htwinView, hothersMappings]

/-- Applying a chain again costs no new composition. Any chain from a reachable column succeeds.
When it is applied again, whatever the cache served in between, it gives the very same columns: the
same rows in the same arrangement and, for a view, the identical mapping. The cache stores nothing
for that, and counts a hit for each step that derives from a view. A chain of views can as well be
applied to another column that starts from the same mapping, or from none: all its views go through
the mappings of the first one, and nothing is stored for it. -/
theorem deriveEach_replays (steps : List CachedStep) (fresh : Nat → Token) (cache : MappingCache) :
    (∀ column : Column, column.Reachable → (∀ step ∈ steps, step.mapping.value.size ≤ rowLimit) →
      ∃ columns after, column.deriveEach fresh steps cache = .ok (columns, after)) ∧
    (∀ (column : Column) (columns : List Column) (after : MappingCache),
      column.deriveEach fresh steps cache = .ok (columns, after) → ∀ calls again, ∃ last,
        column.deriveEach again steps (after.serveAll calls) = .ok (columns, last) ∧
        last.size = (after.serveAll calls).size ∧
        last.hits = (after.serveAll calls).hits +
          (column.receivers columns).countP fun receiver ↦ receiver.arrangement = .mapped) ∧
    ∀ column other : Column, column.KeepsViews → other.KeepsViews →
      other.mapping? = column.mapping? → (∀ step ∈ steps, step.preferView = true) →
      ∃ (columns : List Column) (after : MappingCache) (views : List (Shared Mapping)),
        column.deriveEach fresh steps cache = .ok (columns, after) ∧
        columns.map mapping? = views.map some ∧ views.length = steps.length ∧
        ∀ calls again, ∃ (others : List Column) (last : MappingCache),
          other.deriveEach again steps (after.serveAll calls) = .ok (others, last) ∧
          others.map mapping? = views.map some ∧ last.size = (after.serveAll calls).size := by
  refine ⟨fun column hcolumn hsize ↦ hcolumn.exists_deriveEach fresh cache hsize, ?_, ?_⟩
  · intro column columns after hfirst calls again
    have hagain := (deriveEach_again hfirst).2 _ (after.extends_serveAll calls) again
    exact ⟨_, hagain, rfl, rfl⟩
  · intro column other hcolumn hother hsame hviews
    obtain ⟨columns, after, views, hfirst, hmappings, hlength, hothers⟩ :=
      hcolumn.exists_deriveEach hviews fresh cache
    refine ⟨columns, after, views, hfirst, hmappings, hlength, fun calls again ↦ ?_⟩
    exact hothers other hother hsame _ (after.extends_serveAll calls) again

/-- Two views of a column of numbers, one after the other, and then the same again: one composition
is stored, and one hit is counted. The views of two columns of times go through the same
mappings. -/
theorem deriveEach_replays_two_views :
    ∃ (numbers times others : List Column) (stored counted first second : MappingCache),
      let steps : List CachedStep :=
        [⟨⟨7, .ofList [1, 0]⟩, true⟩, ⟨⟨8, .ofList [0]⟩, true⟩]
      (real [⟨0⟩, ⟨0⟩]).deriveEach id steps .empty = .ok (numbers, stored) ∧
      (real [⟨0⟩, ⟨0⟩]).deriveEach id steps stored = .ok (numbers, counted) ∧
      counted.size = 1 ∧ counted.hits = 1 ∧
      deriveEach id steps ⟨.time, .times (.dense ⟨#[1, 2]⟩)⟩ .empty = .ok (times, first) ∧
      deriveEach id steps ⟨.time, .times (.dense ⟨#[3]⟩)⟩ first = .ok (others, second) ∧
      others.map mapping? = times.map mapping? ∧ second.size = first.size := by
  obtain ⟨hexists, hreplays, hshared⟩ := deriveEach_replays
    [⟨⟨7, .ofList [1, 0]⟩, true⟩, ⟨⟨8, .ofList [0]⟩, true⟩] id .empty
  obtain ⟨numbers, stored, hfirst⟩ := hexists (real [⟨0⟩, ⟨0⟩]) (.real _) (by decide)
  obtain ⟨counted, hsecond, hsize, hhits⟩ := hreplays _ _ _ hfirst [] id
  obtain ⟨times, first, views, htimes, hmappings, -, hothers⟩ :=
    hshared ⟨.time, .times (.dense ⟨#[1, 2]⟩)⟩ ⟨.time, .times (.dense ⟨#[3]⟩)⟩
      ⟨nofun, nofun⟩ ⟨nofun, nofun⟩ rfl (by decide)
  obtain ⟨others, second, hrun, hothersMappings, hstored⟩ := hothers [] id
  refine ⟨numbers, times, others, stored, counted, first, second, hfirst, hsecond, ?_, ?_, htimes,
    hrun, hothersMappings.trans hmappings.symm, hstored⟩
  · cases hfirst
    exact hsize
  · cases hfirst
    exact hhits

end Column

end Columnar
