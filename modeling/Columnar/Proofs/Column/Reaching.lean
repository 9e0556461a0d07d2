import Columnar.Ingest.ColumnBuilder
import Columnar.Proofs.Column.Renumbering
import Columnar.Proofs.Layout.Materializing

/-!
# Reachable columns

A column is reachable when it comes from a constructor, from the gate over data whose sparse stores
were accepted, or from a column builder, followed by any derivations: through mappings, with or
without a cache, without its rows, or for another dictionary. No derivation checks the data again.
What it makes stores only cells of its source and missing, in a store that comes from the source's,
with positions in order (`Layout.Descends`); so all that the gate and the constructors ensure stays
true (`Reachable.valid_and_wellBuilt`). The cache may hold anything.
-/

set_option autoImplicit false
set_option relaxedAutoImplicit false

namespace Columnar

/-! ### Layouts that descend from another one -/

section Layouts

variable {S C : Type} [Cell C] [Store S C]

/-- A layout made from another one, without checking anything again. -/
structure Layout.Descends (derived layout : Layout S C) : Prop where
  formed : derived.Formed
  prototype : Store.Derived layout.prototype derived.prototype
  stored : ∀ cell ∈ Column.storedCells derived,
    cell = Cell.missing ∨ cell ∈ Column.storedCells layout

variable [LawfulStore S]

theorem Layout.Descends.storesFrom {derived layout : Layout S C} (h : derived.Descends layout) :
    derived.StoresFrom layout := ⟨h.prototype.takes_iff, h.stored⟩

namespace Layout

/-- A view and a gathered store descend from the layout that looks at the store. -/
theorem descends_viewOrGather {layout : Layout S C} {store : S} (through : Shared Mapping)
    (view : Bool) (hprototype : layout.prototype = store)
    (hstored : Column.storedCells layout = Store.toList store) :
    (viewOrGather store through view).Descends layout := by
  subst hprototype
  cases view with
  | true =>
    refine ⟨trivial, .itself, fun cell hcell ↦ .inr ?_⟩
    rw [hstored]
    exact hcell
  | false =>
    refine ⟨trivial, .gathered through.value, fun cell hcell ↦ ?_⟩
    rw [hstored]
    exact Store.mem_toList_gather hcell

/-- What a mapping shows of a sparse layout descends from it, encoded again or not. -/
theorem descends_ofSparse {source : SparseStore S C} {mapping : Mapping} {derived : Layout S C}
    (h : ofSparse source mapping = .ok derived) : derived.Descends (sparse source) := by
  obtain ⟨exceptions, hexceptions, h⟩ := Outcome.bind_eq_ok_iff.mp h
  have hpack := Store.pack_of_collect hexceptions
  have hstored : ∀ cell ∈ Store.toList exceptions,
      cell = Cell.missing ∨ cell ∈ Store.toList source.exceptions := by
    intro cell hcell
    rw [Store.toList_pack hpack, Store.fit_of_length_eq (List.length_map _)] at hcell
    obtain ⟨entry, hentry, rfl⟩ := List.mem_map.mp hcell
    rw [shownDeviations_eq_pickedFrom] at hentry
    obtain ⟨-, -, item, -, hpick⟩ := of_mem_pickedFrom hentry
    exact (takes_of_pick hpick).2
  have hcells : ∀ cell ∈ source.default :: Store.toList exceptions,
      cell = Cell.missing ∨ cell ∈ source.default :: Store.toList source.exceptions := by
    intro cell hcell
    rcases List.mem_cons.mp hcell with rfl | hcell
    · exact .inr List.mem_cons_self
    · exact (hstored cell hcell).imp_right (List.mem_cons_of_mem _)
  split at h
  · obtain ⟨encoded, hencoded, h⟩ := Outcome.bind_eq_ok_iff.mp h
    cases h
    obtain ⟨rfl, hformed⟩ := SparseStore.ofExceptions_eq_ok_iff.mp hencoded
    exact ⟨hformed, .packed hpack, hcells⟩
  · obtain ⟨rows, hrows, h⟩ := Outcome.bind_eq_ok_iff.mp h
    cases h
    refine ⟨trivial, Store.derived_of_collect hrows, fun cell hcell ↦ ?_⟩
    change cell ∈ Store.toList rows at hcell
    rw [Store.toList_pack (Store.pack_of_collect hrows)] at hcell
    rcases Store.mem_fit hcell with rfl | hcell
    · exact .inl rfl
    · exact (SparseStore.mem_toList hcell).elim .inl (hcells cell)

variable {layout derived : Layout S C} {mapping : Shared Mapping} {view : Bool} {fresh : Token}

theorem descends_map (h : layout.map mapping view fresh = .ok derived) :
    derived.Descends layout := by
  cases layout with
  | dense store =>
    cases h
    exact descends_viewOrGather mapping view rfl rfl
  | mapped store current =>
    cases h
    exact descends_viewOrGather _ view rfl rfl
  | sparse source => exact descends_ofSparse h

theorem descends_mapCached {cache after : MappingCache}
    (h : layout.mapCached mapping view fresh cache = .ok (derived, after)) :
    derived.Descends layout := by
  have hplain (h : (layout.map mapping view fresh >>= fun derived ↦
      (.ok (derived, cache) : Outcome (Layout S C × MappingCache))) = .ok (derived, after)) :
      derived.Descends layout := by
    obtain ⟨result, hmap, h⟩ := Outcome.bind_eq_ok_iff.mp h
    cases h
    exact descends_map hmap
  cases layout with
  | dense store => exact hplain h
  | sparse source => exact hplain h
  | mapped store current =>
    cases h
    exact descends_viewOrGather (cache.compose current mapping fresh).1 view rfl rfl

theorem descends_stripped (h : layout.stripped = .ok derived) : derived.Descends layout := by
  obtain ⟨store, hstore, h⟩ := Outcome.bind_eq_ok_iff.mp h
  cases h
  refine ⟨trivial, Store.derived_of_collect hstore, fun cell hcell ↦ ?_⟩
  change cell ∈ Store.toList store at hcell
  rw [Store.toList_pack (Store.pack_of_collect hstore)] at hcell
  exact .inl ((Store.mem_fit hcell).resolve_right List.not_mem_nil)

end Layout

/-- A sparse store that one of its two constructors made. -/
inductive SparseStore.Accepted : SparseStore S C → Prop
  | ofExceptions {default : C} {size : Nat} {positions : List Nat} {exceptions : S}
    {sparse : SparseStore S C} (h : ofExceptions default size positions exceptions = .ok sparse) :
    Accepted sparse
  | ofCells {prototype : S} {default : C} {size : Nat} {cells : List C} {sparse : SparseStore S C}
    (h : ofCells prototype default size cells = .ok sparse) : Accepted sparse

omit [LawfulStore S] in
theorem SparseStore.Accepted.wellFormed {sparse : SparseStore S C} (h : sparse.Accepted) :
    sparse.WellFormed := by
  cases h with
  | ofExceptions h => exact (ofExceptions_eq_ok_iff.mp h).2
  | ofCells h =>
    obtain ⟨exceptions, -, h⟩ := Outcome.bind_eq_ok_iff.mp h
    exact (ofExceptions_eq_ok_iff.mp h).2

/-- A layout over an accepted sparse store, or any dense or mapped one. -/
def Layout.Accepted : Layout S C → Prop
  | sparse source => source.Accepted
  | _ => True

omit [LawfulStore S] in
theorem Layout.Accepted.formed {layout : Layout S C} (h : layout.Accepted) : layout.Formed := by
  cases layout with
  | sparse source => exact SparseStore.Accepted.wellFormed h
  | dense store => trivial
  | mapped store mapping => trivial

end Layouts

/-! ### Stores of instants -/

/-- A store of instants that was made from its parts or from instants. -/
inductive InstantStore.Made : InstantStore → Prop
  | ofParts {seconds : List Int} {nanos : Option (List Nat)} {store : InstantStore}
    (h : ofParts seconds nanos = .ok store) : Made store
  | ofInstants (size : Nat) (instants : List (Option Instant)) : Made (ofInstants size instants)

/-- Nanoseconds, if there are any, are kept for every position. -/
def InstantStore.Parallel (store : InstantStore) : Prop :=
  ∀ nanos, store.nanos = some nanos → nanos.size = store.seconds.size

theorem InstantStore.parallel_ofInstants (size : Nat) (instants : List (Option Instant)) :
    (ofInstants size instants).Parallel := by
  intro nanos hnanos
  obtain ⟨-, heq⟩ := Option.ite_none_right_eq_some.mp hnanos
  cases heq
  simp [ofInstants]

theorem InstantStore.Made.parallel {store : InstantStore} (h : store.Made) : store.Parallel := by
  cases h with
  | ofInstants size instants => exact parallel_ofInstants size instants
  | @ofParts seconds parts store h =>
    intro nanos hnanos
    cases parts with
    | none =>
      cases h
      contradiction
    | some parts =>
      obtain ⟨⟨⟩, hlength, h⟩ := Outcome.bind_eq_ok_iff.mp h
      split at h
      · contradiction
      · cases h
        cases hnanos
        have heq := of_decide_eq_true (Outcome.require_eq_ok_iff.mp hlength)
        simpa using heq

theorem InstantStore.Parallel.derived {source store : InstantStore} (h : source.Parallel)
    (hderived : Store.Derived source store) : store.Parallel := by
  cases hderived with
  | itself => exact h
  | gathered mapping => exact parallel_ofInstants _ _
  | packed hpack =>
    cases hpack
    exact parallel_ofInstants _ _

/-! ### Column data -/

namespace ColumnData

/-- Data whose stores were all made by constructors. -/
def Accepted (data : ColumnData) : Prop :=
  (data.onLayout fun layout ↦ layout.Accepted) ∧
    match data with
    | instants layout => layout.prototype.Made
    | _ => True

/-- The instants of the data keep their nanoseconds for every position. -/
def Parallel : ColumnData → Prop
  | instants layout => layout.prototype.Parallel
  | _ => True

/-- What constructors and derivations ensure besides the validity of the cells. -/
structure WellBuilt (data : ColumnData) : Prop where
  formed : data.onLayout fun layout ↦ layout.Formed
  parallel : data.Parallel

theorem Accepted.wellBuilt {data : ColumnData} (h : data.Accepted) : data.WellBuilt := by
  refine ⟨onLayout_imp h.1 fun _ haccepted ↦ Layout.Accepted.formed haccepted, ?_⟩
  cases data with
  | instants layout => exact InstantStore.Made.parallel h.2
  | _ => trivial

/-- Replacing the layout by one that descends from it, with any kind of computation whose mapped
results are the results mapped. -/
theorem descends_of_traverse {F : Type → Type} [Functor F]
    (returns : {A : Type} → F A → A → Prop)
    (hmap : ∀ {A B : Type} {wrap : A → B} {action : F A} {result : B},
      returns (wrap <$> action) result → ∃ value, returns action value ∧ result = wrap value)
    {f : {S C : Type} → [Cell C] → [Store S C] → Layout S C → F (Layout S C)}
    (hf : ∀ {S C : Type} [Cell C] [Store S C] [LawfulStore S] {layout derived : Layout S C},
      returns (f layout) derived → derived.Descends layout)
    {data derived : ColumnData} (h : returns (data.traverse f) derived) :
    derived.StoresFrom data ∧ (data.WellBuilt → derived.WellBuilt) := by
  cases data with
  | numbers layout =>
    obtain ⟨result, hresult, rfl⟩ := hmap h
    exact ⟨.numbers (hf hresult).storesFrom, fun _ ↦ ⟨(hf hresult).formed, trivial⟩⟩
  | times layout =>
    obtain ⟨result, hresult, rfl⟩ := hmap h
    exact ⟨.times (hf hresult).storesFrom, fun _ ↦ ⟨(hf hresult).formed, trivial⟩⟩
  | instants layout =>
    obtain ⟨result, hresult, rfl⟩ := hmap h
    exact ⟨.instants (hf hresult).storesFrom, fun hbuilt ↦ ⟨(hf hresult).formed,
      InstantStore.Parallel.derived hbuilt.parallel (hf hresult).prototype⟩⟩
  | categories layout dictionary =>
    obtain ⟨result, hresult, rfl⟩ := hmap h
    exact ⟨.categories (hf hresult).storesFrom, fun _ ↦ ⟨(hf hresult).formed, trivial⟩⟩
  | objects layout =>
    obtain ⟨result, hresult, rfl⟩ := hmap h
    exact ⟨.objects (hf hresult).storesFrom, fun _ ↦ ⟨(hf hresult).formed, trivial⟩⟩

end ColumnData

/-! ### Constructors and builders -/

/-- What a builder lays out is formed, and its store is the one given or comes from the
prototype. -/
theorem ColumnBuilder.formed_layoutOf {S C : Type} [Tracked C] [Store S C] {prototype : S}
    {dense : Tracked.Buffer C → Outcome S} {accumulated : Accumulated C} {layout : Layout S C}
    (h : layoutOf prototype dense accumulated = .ok layout) :
    layout.Formed ∧ (Store.Derived prototype layout.prototype ∨
      ∃ buffer, dense buffer = .ok layout.prototype) := by
  cases accumulated with
  | dense buffer =>
    obtain ⟨store, hstore, h⟩ := Outcome.bind_eq_ok_iff.mp h
    cases h
    exact ⟨trivial, .inr ⟨buffer, hstore⟩⟩
  | sparse default size exceptions =>
    obtain ⟨store, hstore, h⟩ := Outcome.bind_eq_ok_iff.mp h
    obtain ⟨sparse, hsparse, h⟩ := Outcome.bind_eq_ok_iff.mp h
    cases h
    obtain ⟨rfl, hformed⟩ := SparseStore.ofExceptions_eq_ok_iff.mp hsparse
    exact ⟨hformed, .inl (Store.derived_of_collect hstore)⟩

namespace Column

/-- The gate passes on the data that it was given. -/
theorem data_of_ofData {type : ColumnType} {data : ColumnData} {column : Column}
    (h : ofData type data = .ok column) : column.data.Valid column.type ∧ column.data = data := by
  obtain ⟨rfl, hvalid⟩ := ofData_eq_ok_iff.mp h
  exact ⟨hvalid, rfl⟩

theorem wellBuilt_of_ofAccepted {type : ColumnType} {values : List Value} {fresh : Token}
    {column : Column} (h : ofAccepted type values fresh = .ok column) : column.data.WellBuilt := by
  cases type with
  | nominal =>
    obtain ⟨indices, -, h⟩ := Outcome.bind_eq_ok_iff.mp h
    obtain ⟨format, -, h⟩ := Outcome.bind_eq_ok_iff.mp h
    obtain ⟨array, -, h⟩ := Outcome.bind_eq_ok_iff.mp h
    rw [(data_of_ofData h).2]
    exact ⟨trivial, trivial⟩
  | time =>
    obtain ⟨store, -, h⟩ := Outcome.bind_eq_ok_iff.mp h
    cases h
    exact ⟨trivial, trivial⟩
  | dateTime =>
    cases h
    exact ⟨trivial, InstantStore.parallel_ofInstants _ _⟩
  | _ =>
    cases h
    exact ⟨trivial, trivial⟩

theorem wellBuilt_of_ofValues {type : ColumnType} {values : List Value} {fresh : Token}
    {column : Column} (h : ofValues type values fresh = .ok column) : column.data.WellBuilt := by
  by_cases haccepts : ∀ value ∈ values, type.accepts value
  · rw [ofValues_of_accepts fresh haccepts] at h
    exact wellBuilt_of_ofAccepted h
  · obtain ⟨reason, hrefused⟩ := ofValues_of_not_accepts fresh haccepts
    rw [hrefused] at h
    contradiction

/-- A column builder in any state makes valid data of formed layouts. -/
theorem valid_of_finish {builder : ColumnBuilder} {final : FinalLayout} {fresh : Token}
    {column : Column} (h : builder.finish final fresh = .ok column) :
    column.data.Valid column.type ∧ column.data.WellBuilt := by
  cases builder with
  | numbers type cells =>
    obtain ⟨accumulated, -, h⟩ := Outcome.bind_eq_ok_iff.mp h
    obtain ⟨layout, hlayout, h⟩ := Outcome.bind_eq_ok_iff.mp h
    obtain ⟨hvalid, hdata⟩ := data_of_ofData h
    exact ⟨hvalid, hdata ▸ ⟨(ColumnBuilder.formed_layoutOf hlayout).1, trivial⟩⟩
  | times cells =>
    obtain ⟨accumulated, -, h⟩ := Outcome.bind_eq_ok_iff.mp h
    obtain ⟨layout, hlayout, h⟩ := Outcome.bind_eq_ok_iff.mp h
    obtain ⟨hvalid, hdata⟩ := data_of_ofData h
    exact ⟨hvalid, hdata ▸ ⟨(ColumnBuilder.formed_layoutOf hlayout).1, trivial⟩⟩
  | instants highPrecision cells =>
    obtain ⟨accumulated, -, h⟩ := Outcome.bind_eq_ok_iff.mp h
    obtain ⟨layout, hlayout, h⟩ := Outcome.bind_eq_ok_iff.mp h
    obtain ⟨hvalid, hdata⟩ := data_of_ofData h
    obtain ⟨hformed, hstore⟩ := ColumnBuilder.formed_layoutOf hlayout
    have hparallel : layout.prototype.Parallel := by
      rcases hstore with hderived | ⟨buffer, hbuffer⟩
      · exact (InstantStore.parallel_ofInstants 0 []).derived hderived
      · rw [← Except.ok.inj hbuffer]
        exact InstantStore.parallel_ofInstants _ _
    exact ⟨hvalid, hdata ▸ ⟨hformed, hparallel⟩⟩
  | categories dictionary cells =>
    obtain ⟨format, -, h⟩ := Outcome.bind_eq_ok_iff.mp h
    obtain ⟨accumulated, -, h⟩ := Outcome.bind_eq_ok_iff.mp h
    obtain ⟨layout, hlayout, h⟩ := Outcome.bind_eq_ok_iff.mp h
    obtain ⟨hvalid, hdata⟩ := data_of_ofData h
    exact ⟨hvalid, hdata ▸ ⟨(ColumnBuilder.formed_layoutOf hlayout).1, trivial⟩⟩
  | objects type values =>
    obtain ⟨hvalid, hdata⟩ := data_of_ofData h
    exact ⟨hvalid, hdata ▸ ⟨trivial, trivial⟩⟩

/-! ### Reachable columns -/

/-- The columns that constructors, builders and derivations make. -/
inductive Reachable : Column → Prop
  | real (numbers : List Binary64) : Reachable (real numbers)
  | integer (numbers : List Binary64) : Reachable (integer numbers)
  | time {nanos : List Int} {column : Column} (h : time nanos = .ok column) : Reachable column
  | dateTime {seconds : List Int} {nanos : Option (List Nat)} {column : Column}
    (h : dateTime seconds nanos = .ok column) : Reachable column
  | categorical {indices : IndexArray} {dictionary : Shared Dictionary} {column : Column}
    (h : categorical indices dictionary = .ok column) : Reachable column
  | ofValues {type : ColumnType} {values : List Value} {fresh : Token} {column : Column}
    (h : ofValues type values fresh = .ok column) : Reachable column
  | ofData {type : ColumnType} {data : ColumnData} {column : Column} (haccepted : data.Accepted)
    (h : ofData type data = .ok column) : Reachable column
  | finish {builder : ColumnBuilder} {final : FinalLayout} {fresh : Token} {column : Column}
    (h : builder.finish final fresh = .ok column) : Reachable column
  | map {column derived : Column} {mapping : Shared Mapping} {preferView : Bool} {fresh : Token}
    (hcolumn : Reachable column) (h : column.map mapping preferView fresh = .ok derived) :
    Reachable derived
  | mapCached {column derived : Column} {mapping : Shared Mapping} {preferView : Bool}
    {fresh : Token} {cache after : MappingCache} (hcolumn : Reachable column)
    (h : column.mapCached mapping preferView fresh cache = .ok (derived, after)) :
    Reachable derived
  | stripped {column derived : Column} (hcolumn : Reachable column)
    (h : column.stripped = .ok derived) : Reachable derived
  | withDictionary {column derived : Column} {dictionary : Shared Dictionary}
    {renumbering : Renumbering} (hcolumn : Reachable column)
    (h : column.withDictionary dictionary renumbering = .ok derived) : Reachable derived

/-- A derivation that replaces the layout by one that descends from it keeps the data valid and
well built. -/
theorem valid_of_traverse {f : {S C : Type} → [Cell C] → [Store S C] → Layout S C →
      Outcome (Layout S C)}
    (hf : ∀ {S C : Type} [Cell C] [Store S C] [LawfulStore S] {layout derived : Layout S C},
      f layout = .ok derived → derived.Descends layout)
    {column derived : Column} (hcolumn : column.data.Valid column.type ∧ column.data.WellBuilt)
    (h : (column.data.traverse f >>= fun data ↦ (.ok ⟨column.type, data⟩ : Outcome Column)) =
      .ok derived) : derived.data.Valid derived.type ∧ derived.data.WellBuilt := by
  obtain ⟨data, hdata, h⟩ := Outcome.bind_eq_ok_iff.mp h
  cases h
  have hmap {A B : Type} {wrap : A → B} {action : Outcome A} {result : B}
      (h : wrap <$> action = .ok result) : ∃ value, action = .ok value ∧ result = wrap value := by
    cases action with
    | error fault => contradiction
    | ok value => exact ⟨value, rfl, (Except.ok.inj h).symm⟩
  obtain ⟨hstores, hbuilt⟩ := ColumnData.descends_of_traverse
    (fun {A} (action : Outcome A) result ↦ action = .ok result) hmap hf hdata
  exact ⟨hstores.valid hcolumn.1, hbuilt hcolumn.2⟩

/-- As `valid_of_traverse`, with a cache at hand. -/
theorem valid_of_mapCached {column derived : Column} {mapping : Shared Mapping} {preferView : Bool}
    {fresh : Token} {cache after : MappingCache}
    (hcolumn : column.data.Valid column.type ∧ column.data.WellBuilt)
    (h : column.mapCached mapping preferView fresh cache = .ok (derived, after)) :
    derived.data.Valid derived.type ∧ derived.data.WellBuilt := by
  obtain ⟨⟨data, next⟩, hdata, h⟩ := Outcome.bind_eq_ok_iff.mp h
  cases h
  have hmap {A B : Type} {wrap : A → B} {action : StateT MappingCache Outcome A} {result : B}
      (h : ∃ after, (wrap <$> action) cache = .ok (result, after)) :
      ∃ value, (∃ after, action cache = .ok (value, after)) ∧ result = wrap value := by
    obtain ⟨after, h⟩ := h
    obtain ⟨⟨value, next⟩, haction, h⟩ := Outcome.bind_eq_ok_iff.mp h
    cases h
    exact ⟨value, ⟨_, haction⟩, rfl⟩
  obtain ⟨hstores, hbuilt⟩ := ColumnData.descends_of_traverse
    (fun {A} (action : StateT MappingCache Outcome A) result ↦
      ∃ after, action cache = .ok (result, after)) hmap
    (fun ⟨_, h⟩ ↦ Layout.descends_mapCached h) ⟨_, hdata⟩
  exact ⟨hstores.valid hcolumn.1, hbuilt hcolumn.2⟩

/-- What the gate and the constructors ensure is true of every reachable column. -/
theorem Reachable.valid_and_wellBuilt {column : Column} (h : column.Reachable) :
    column.data.Valid column.type ∧ column.data.WellBuilt := by
  induction h with
  | real numbers => exact ⟨valid_real numbers, trivial, trivial⟩
  | integer numbers => exact ⟨valid_integer numbers, trivial, trivial⟩
  | time h =>
    refine ⟨(Constructed.time h).valid, ?_⟩
    obtain ⟨store, -, h⟩ := Outcome.bind_eq_ok_iff.mp h
    cases h
    exact ⟨trivial, trivial⟩
  | dateTime h =>
    refine ⟨(Constructed.dateTime h).valid, ?_⟩
    obtain ⟨store, hstore, h⟩ := Outcome.bind_eq_ok_iff.mp h
    cases h
    exact ⟨trivial, (InstantStore.Made.ofParts hstore).parallel⟩
  | categorical h =>
    obtain ⟨hvalid, hdata⟩ := data_of_ofData h
    exact ⟨hvalid, hdata ▸ ⟨trivial, trivial⟩⟩
  | ofValues h => exact ⟨(Constructed.ofValues h).valid, wellBuilt_of_ofValues h⟩
  | ofData haccepted h =>
    obtain ⟨hvalid, hdata⟩ := data_of_ofData h
    exact ⟨hvalid, hdata ▸ haccepted.wellBuilt⟩
  | finish h => exact valid_of_finish h
  | map hcolumn h ih => exact valid_of_traverse (fun h ↦ Layout.descends_map h) ih h
  | mapCached hcolumn h ih => exact valid_of_mapCached ih h
  | stripped hcolumn h ih => exact valid_of_traverse (fun h ↦ Layout.descends_stripped h) ih h
  | @withDictionary column derived dictionary renumbering hcolumn h ih =>
    obtain ⟨hvalid, hbuilt⟩ := ih
    obtain ⟨layout, current, rebuilt, hdata, rfl, hrenumbers, hrebuilt⟩ :=
      of_withDictionary hvalid h
    have hformed : layout.Formed := by
      have hformed := hbuilt.formed
      rw [hdata] at hformed
      exact hformed
    exact ⟨hrebuilt, hrenumbers.formed hformed, trivial⟩

theorem Reachable.valid {column : Column} (h : column.Reachable) :
    column.data.Valid column.type := h.valid_and_wellBuilt.1

theorem Reachable.formed {column : Column} (h : column.Reachable) :
    column.data.onLayout fun layout ↦ layout.Formed := h.valid_and_wellBuilt.2.formed

end Column

end Columnar
