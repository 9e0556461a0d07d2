import Columnar.Mapping.Cache

/-!
# Shared mappings and the composition cache

A cache recognises a pair of mappings by their tokens, and tokens are taken again once nothing holds
the object they stood for. That is sound because the cache itself keeps the mappings of every
composition it stores: among all mappings that something holds, equal tokens mean equal mappings
(`Coherent`). A new token is one that no held mapping has, so this survives every allocation, and a
stored composition is the composition of the pair it is found for (`value_compose`).

`Heap` is the world of one cache: the handles that callers hold and the cache. `Heap.run` takes it
through any history of calls; the allocator gives any token that is not taken.
-/

set_option autoImplicit false
set_option relaxedAutoImplicit false

namespace Columnar

/-- Equal tokens mean equal mappings. -/
def Coherent (mappings : List (Shared Mapping)) : Prop :=
  ∀ first ∈ mappings, ∀ second ∈ mappings, first.token = second.token → first.value = second.value

theorem Coherent.mono {mappings fewer : List (Shared Mapping)} (h : Coherent mappings)
    (hsub : ∀ mapping ∈ fewer, mapping ∈ mappings) : Coherent fewer := by
  intro first hfirst second hsecond htoken
  exact h first (hsub first hfirst) second (hsub second hsecond) htoken

/-- A new mapping takes a token that no held one has. -/
theorem Coherent.cons {mappings : List (Shared Mapping)} (h : Coherent mappings)
    {mapping : Shared Mapping} (hfresh : mapping.token ∉ mappings.map Shared.token) :
    Coherent (mapping :: mappings) := by
  have hne (other : Shared Mapping) (hother : other ∈ mappings) : mapping.token ≠ other.token := by
    intro htoken
    apply hfresh
    rw [htoken]
    exact List.mem_map_of_mem hother
  intro first hfirst second hsecond htoken
  rcases List.mem_cons.mp hfirst with rfl | hheld
  · rcases List.mem_cons.mp hsecond with rfl | hother
    · rfl
    · exact absurd htoken (hne second hother)
  · rcases List.mem_cons.mp hsecond with rfl | hother
    · exact absurd htoken.symm (hne first hheld)
    · exact h first hheld second hother htoken

namespace MappingCache

/-- The mappings that the stored compositions keep. -/
def kept (cache : MappingCache) : List (Shared Mapping) :=
  cache.compositions.flatMap fun stored ↦ [stored.base, stored.next, stored.composed]

/-- Every stored composition is the composition of its two mappings. -/
def Truthful (cache : MappingCache) : Prop :=
  ∀ stored ∈ cache.compositions, stored.composed.value = stored.base.value.compose stored.next.value

variable {cache : MappingCache} {base next : Shared Mapping} {fresh : Token}

theorem mem_kept {stored : Composition} (h : stored ∈ cache.compositions) :
    stored.base ∈ cache.kept ∧ stored.next ∈ cache.kept ∧ stored.composed ∈ cache.kept := by
  have hmem (mapping : Shared Mapping)
      (hmapping : mapping ∈ [stored.base, stored.next, stored.composed]) : mapping ∈ cache.kept :=
    List.mem_flatMap.mpr ⟨stored, h, hmapping⟩
  exact ⟨hmem _ (by simp), hmem _ (by simp), hmem _ (by simp)⟩

/-- A composition that is found has the tokens of the pair asked for. -/
theorem of_find? {stored : Composition} (h : cache.find? base next = some stored) :
    stored ∈ cache.compositions ∧ stored.base.token = base.token ∧
      stored.next.token = next.token := by
  have hfound := List.find?_some h
  simp only [Shared.same, Bool.and_eq_true, beq_iff_eq] at hfound
  exact ⟨List.mem_of_find?_eq_some h, hfound.1, hfound.2⟩

/-- Either the cache knew the pair and only counts a hit, or it stores the new composition. -/
theorem compose_cases (cache : MappingCache) (base next : Shared Mapping) (fresh : Token) :
    (∃ stored, cache.find? base next = some stored ∧
      cache.compose base next fresh = (stored.composed, { cache with hits := cache.hits + 1 })) ∨
    (cache.find? base next = none ∧
      cache.compose base next fresh = (⟨fresh, base.value.compose next.value⟩,
        { cache with compositions :=
            ⟨base, next, ⟨fresh, base.value.compose next.value⟩⟩ :: cache.compositions })) := by
  unfold compose
  cases hfind : cache.find? base next with
  | some stored => exact .inl ⟨stored, rfl, rfl⟩
  | none => exact .inr ⟨rfl, rfl⟩

/-- The cache answers with the composition of the two mappings, stored or new. -/
theorem value_compose (htruthful : cache.Truthful)
    (hcoherent : Coherent (base :: next :: cache.kept)) :
    (cache.compose base next fresh).1.value = base.value.compose next.value := by
  rcases compose_cases cache base next fresh with ⟨stored, hfind, hcompose⟩ | ⟨-, hcompose⟩
  · obtain ⟨hstored, hbase, hnext⟩ := of_find? hfind
    obtain ⟨hkeptBase, hkeptNext, -⟩ := mem_kept hstored
    have hbaseValue := hcoherent stored.base (by simp [hkeptBase]) base (by simp) hbase
    have hnextValue := hcoherent stored.next (by simp [hkeptNext]) next (by simp) hnext
    rw [hcompose, htruthful stored hstored, hbaseValue, hnextValue]
  · rw [hcompose]

theorem truthful_compose (htruthful : cache.Truthful) :
    (cache.compose base next fresh).2.Truthful := by
  rcases compose_cases cache base next fresh with ⟨stored, -, hcompose⟩ | ⟨-, hcompose⟩
  · rw [hcompose]
    exact htruthful
  · rw [hcompose]
    intro stored hstored
    rcases List.mem_cons.mp hstored with rfl | hstored
    · rfl
    · exact htruthful stored hstored

/-- Composing held mappings keeps the tokens coherent, the answer being held from then on. -/
theorem coherent_compose {held : List (Shared Mapping)} (hcoherent : Coherent (held ++ cache.kept))
    (hbase : base ∈ held) (hnext : next ∈ held)
    (hfresh : fresh ∉ (held ++ cache.kept).map Shared.token) :
    Coherent ((cache.compose base next fresh).1 :: held ++
      (cache.compose base next fresh).2.kept) := by
  rcases compose_cases cache base next fresh with ⟨stored, hfind, hcompose⟩ | ⟨-, hcompose⟩
  · have hcomposed := (mem_kept (of_find? hfind).1).2.2
    rw [hcompose]
    apply hcoherent.mono
    intro mapping hmapping
    change mapping ∈ stored.composed :: held ++ cache.kept at hmapping
    rw [List.cons_append, List.mem_cons] at hmapping
    rcases hmapping with rfl | hmapping
    · exact List.mem_append_right _ hcomposed
    · exact hmapping
  · obtain ⟨composed, hcomposed⟩ : ∃ composed : Shared Mapping,
        composed = ⟨fresh, base.value.compose next.value⟩ := ⟨_, rfl⟩
    rw [hcompose, ← hcomposed]
    have hcons : Coherent (composed :: (held ++ cache.kept)) := by
      apply hcoherent.cons
      rw [hcomposed]
      exact hfresh
    apply hcons.mono
    intro mapping hmapping
    simp only [kept, List.flatMap_cons, List.cons_append, List.nil_append, List.mem_cons,
      List.mem_append] at hmapping ⊢
    rcases hmapping with rfl | hmapping | rfl | rfl | rfl | hmapping
    · exact .inl rfl
    · exact .inr (.inl hmapping)
    · exact .inr (.inl hbase)
    · exact .inr (.inl hnext)
    · exact .inl rfl
    · exact .inr (.inr hmapping)

end MappingCache

/-! ### Histories -/

/-- Gives the tokens of new objects: any token that is not taken, at any time. -/
structure Allocator where
  choose : (time : Nat) → (taken : List Token) → Token
  choose_notMem : ∀ time taken, choose time taken ∉ taken

/-- Gives the token above all that are taken. -/
def Allocator.above : Allocator where
  choose _ taken := taken.max?.getD 0 + 1
  choose_notMem _ taken := by
    intro hmem
    exact Nat.not_succ_le_self _ (@List.le_max?_getD_of_mem taken _ 0 hmem)

/-- The mappings that callers hold, in places, and the cache; `allocations` counts the tokens given
so far. -/
structure Heap where
  held : List (Shared Mapping) := []
  cache : MappingCache := .empty
  allocations : Nat := 0

/-- What callers do with mappings and the cache; a mapping is named by its place. -/
inductive HeapCall where
  | create (mapping : Mapping)
  | share (place : Nat)
  | drop (place : Nat)
  | compose (base next : Nat)
  | clear

namespace Heap

variable (allocator : Allocator)

/-- The mappings that something holds. -/
def live (heap : Heap) : List (Shared Mapping) := heap.held ++ heap.cache.kept

def fresh (heap : Heap) : Token :=
  allocator.choose heap.allocations (heap.live.map Shared.token)

/-- The heap after a call; one that names an empty place does nothing. -/
def step (heap : Heap) : HeapCall → Heap
  | .create mapping =>
    { heap with
      held := ⟨heap.fresh allocator, mapping⟩ :: heap.held
      allocations := heap.allocations + 1 }
  | .share place => { heap with held := heap.held[place]?.toList ++ heap.held }
  | .drop place => { heap with held := heap.held.eraseIdx place }
  | .compose base next =>
    match heap.held[base]?, heap.held[next]? with
    | some base, some next =>
      let (composed, cache) := heap.cache.compose base next (heap.fresh allocator)
      ⟨composed :: heap.held, cache, heap.allocations + 1⟩
    | _, _ => heap
  | .clear => { heap with cache := heap.cache.clear }

/-- The heap after a history of calls, from an empty one on. -/
def run (calls : List HeapCall) : Heap := calls.foldl (step allocator) {}

structure Sound (heap : Heap) : Prop where
  coherent : Coherent heap.live
  truthful : heap.cache.Truthful

variable {allocator} {heap : Heap}

theorem fresh_notMem (heap : Heap) : heap.fresh allocator ∉ heap.live.map Shared.token :=
  allocator.choose_notMem _ _

theorem Sound.step (h : heap.Sound) (call : HeapCall) : (heap.step allocator call).Sound := by
  cases call with
  | create mapping => exact ⟨h.coherent.cons (heap.fresh_notMem), h.truthful⟩
  | share place =>
    refine ⟨h.coherent.mono ?_, h.truthful⟩
    intro mapping hmapping
    simp only [Heap.step, live, List.mem_append, Option.mem_toList] at hmapping ⊢
    rcases hmapping with (hplace | hheld) | hkept
    · exact .inl (List.mem_of_getElem? hplace)
    · exact .inl hheld
    · exact .inr hkept
  | drop place =>
    refine ⟨h.coherent.mono ?_, h.truthful⟩
    intro mapping hmapping
    simp only [Heap.step, live, List.mem_append] at hmapping ⊢
    exact hmapping.imp_left List.mem_of_mem_eraseIdx
  | compose base next =>
    cases hbase : heap.held[base]? with
    | none => simpa only [Heap.step, hbase] using h
    | some first =>
      cases hnext : heap.held[next]? with
      | none => simpa only [Heap.step, hbase, hnext] using h
      | some second =>
        have hcoherent := MappingCache.coherent_compose h.coherent
          (List.mem_of_getElem? hbase) (List.mem_of_getElem? hnext)
          (@fresh_notMem allocator heap)
        simp only [Heap.step, hbase, hnext]
        exact ⟨hcoherent, MappingCache.truthful_compose h.truthful⟩
  | clear =>
    refine ⟨h.coherent.mono ?_, nofun⟩
    intro mapping hmapping
    simp only [Heap.step, live, MappingCache.kept, MappingCache.clear, List.flatMap_nil,
      List.append_nil] at hmapping
    exact List.mem_append_left _ hmapping

/-- Whatever the history, tokens are coherent and the cache holds compositions only. -/
theorem sound_run (calls : List HeapCall) : (run allocator calls).Sound := by
  have hfrom (heap : Heap) (h : heap.Sound) : (calls.foldl (Heap.step allocator) heap).Sound := by
    induction calls generalizing heap with
    | nil => exact h
    | cons call calls ih => exact ih _ (h.step call)
  exact hfrom {} ⟨nofun, nofun⟩

end Heap

end Columnar
