import Columnar.Proofs.Mapping.Sharing
import Mathlib.Data.List.Dedup
import Mathlib.Logic.Function.Basic

/-!
# What the cache was asked before

A token says where a mapping is kept, and it is given again when nothing holds that mapping any
more. Which mapping it is, its birth says: the number of the allocation that made it. A `Chronicle`
follows a heap through its history and notes which mapping was made last under each token, and what
the cache was asked and answered since it was cleared. The heap itself knows neither.

Two mappings that something holds have the same token exactly when they have the same birth
(`Recorded.same_iff`), and what the cache stores is what it was asked, each pair once
(`Recorded.step`). So it knows a pair exactly when this very pair was asked for since the last
clearing, and answers with the very mapping that it answered then (`compose_of_run`).
-/

set_option autoImplicit false
set_option relaxedAutoImplicit false

namespace Columnar

/-- A mapping with the number of the allocation that made it. -/
structure Born where
  mapping : Shared Mapping
  birth : Nat

/-- A request to the cache: the pair to compose, and the mapping answered. -/
structure Request where
  base : Born
  next : Born
  answer : Born

/-- Which two mappings are to be composed. -/
def Request.pair (request : Request) : Nat × Nat := (request.base.birth, request.next.birth)

/-- The token under which a call makes a mapping. Composing makes none when the cache answers. -/
def Heap.made? (allocator : Allocator) (heap : Heap) : HeapCall → Option Token
  | .create _ => some (heap.fresh allocator)
  | .compose base next =>
    match heap.held[base]?, heap.held[next]? with
    | some base, some next =>
      if (heap.cache.find? base next).isNone then some (heap.fresh allocator) else none
    | _, _ => none
  | .share _ | .drop _ | .clear => none

/-- A heap with what only an observer of its whole history knows. -/
structure Chronicle where
  heap : Heap := {}
  /-- The birth of the mapping that was made last under a token. -/
  births : Token → Nat := fun _ ↦ 0
  /-- What the cache was asked since it was cleared, the latest first. -/
  requests : List Request := []

namespace Chronicle

variable (allocator : Allocator)

/-- A held mapping is the one that was made last under its token. -/
def born (past : Chronicle) (mapping : Shared Mapping) : Born :=
  ⟨mapping, past.births mapping.token⟩

def birthsAfter (past : Chronicle) (call : HeapCall) : Token → Nat :=
  match past.heap.made? allocator call with
  | some token => Function.update past.births token past.heap.allocations
  | none => past.births

/-- The chronicle after a call. -/
def step (past : Chronicle) (call : HeapCall) : Chronicle :=
  let heap := past.heap.step allocator call
  let births := past.birthsAfter allocator call
  let requests := match call with
    | .clear => []
    | .compose base next =>
      match past.heap.held[base]?, past.heap.held[next]?, heap.held.head? with
      | some base, some next, some answer =>
        ⟨past.born base, past.born next, ⟨answer, births answer.token⟩⟩ :: past.requests
      | _, _, _ => past.requests
    | _ => past.requests
  ⟨heap, births, requests⟩

/-- The chronicle of a history of calls, from an empty heap on. -/
def run (calls : List HeapCall) : Chronicle := calls.foldl (step allocator) {}

/-- Following a heap does not disturb it. -/
theorem heap_run (calls : List HeapCall) : (run allocator calls).heap = Heap.run allocator calls :=
  (List.foldl_hom heap fun _ _ ↦ rfl).symm

end Chronicle

/-! ### Births -/

/-- Mappings of different tokens have different births, all of them before `now`. -/
structure Numbered (births : Token → Nat) (now : Nat) (mappings : List (Shared Mapping)) :
    Prop where
  lt : ∀ mapping ∈ mappings, births mapping.token < now
  inj : ∀ first ∈ mappings, ∀ second ∈ mappings,
    births first.token = births second.token → first.token = second.token

namespace Numbered

variable {births : Token → Nat} {now : Nat} {mappings : List (Shared Mapping)}

theorem mono (h : Numbered births now mappings) {later : Nat} (hlater : now ≤ later)
    {fewer : List (Shared Mapping)} (hsub : ∀ mapping ∈ fewer, mapping ∈ mappings) :
    Numbered births later fewer := by
  constructor
  · intro mapping hmapping
    exact Nat.lt_of_lt_of_le (h.lt mapping (hsub mapping hmapping)) hlater
  · intro first hfirst second hsecond hbirths
    exact h.inj first (hsub first hfirst) second (hsub second hsecond) hbirths

/-- A token that no mapping has is none of theirs. -/
theorem update_eq {token : Token} (hfresh : token ∉ mappings.map Shared.token)
    {mapping : Shared Mapping} (hmapping : mapping ∈ mappings) :
    Function.update births token now mapping.token = births mapping.token := by
  apply Function.update_of_ne
  rintro rfl
  exact hfresh (List.mem_map_of_mem hmapping)

/-- A mapping made now, under a token that no other has. -/
theorem cons (h : Numbered births now mappings) (made : Shared Mapping)
    (hfresh : made.token ∉ mappings.map Shared.token) :
    Numbered (Function.update births made.token now) (now + 1) (made :: mappings) := by
  have hmade : Function.update births made.token now made.token = now := Function.update_self ..
  constructor
  · intro mapping hmapping
    rcases List.mem_cons.mp hmapping with rfl | hheld
    · rw [hmade]
      exact Nat.lt_succ_self now
    · rw [update_eq hfresh hheld]
      exact Nat.lt_succ_of_lt (h.lt mapping hheld)
  · intro first hfirst second hsecond hbirths
    rcases List.mem_cons.mp hfirst with rfl | hheld
    · rcases List.mem_cons.mp hsecond with rfl | hother
      · rfl
      · rw [hmade, update_eq hfresh hother] at hbirths
        exact absurd hbirths (Nat.ne_of_gt (h.lt second hother))
    · rcases List.mem_cons.mp hsecond with rfl | hother
      · rw [hmade, update_eq hfresh hheld] at hbirths
        exact absurd hbirths (Nat.ne_of_lt (h.lt first hheld))
      · rw [update_eq hfresh hheld, update_eq hfresh hother] at hbirths
        exact h.inj first hheld second hother hbirths

end Numbered

/-! ### What the cache stores is what it was asked -/

namespace Chronicle

/-- The request that a stored composition answers. -/
def requestOf (past : Chronicle) (stored : Composition) : Request :=
  ⟨past.born stored.base, past.born stored.next, past.born stored.composed⟩

structure Recorded (past : Chronicle) : Prop where
  sound : past.heap.Sound
  numbered : Numbered past.births past.heap.allocations past.heap.live
  asked : ∀ request,
    request ∈ past.requests ↔ request ∈ past.heap.cache.compositions.map past.requestOf
  distinct : ((past.heap.cache.compositions.map past.requestOf).map Request.pair).Nodup

variable {past : Chronicle}

/-- Among held mappings, tokens tell what births tell. -/
theorem Recorded.same_iff (h : past.Recorded) {first second : Shared Mapping}
    (hfirst : first ∈ past.heap.live) (hsecond : second ∈ past.heap.live) :
    first.same second ↔ past.births first.token = past.births second.token := by
  rw [Shared.same, beq_iff_eq]
  exact ⟨congrArg past.births, h.numbered.inj first hfirst second hsecond⟩

/-- The cache holds as many compositions as it was asked for different pairs. -/
theorem Recorded.size_eq (h : past.Recorded) :
    past.heap.cache.size = (past.requests.map Request.pair).dedup.length := by
  have hperm : ((past.heap.cache.compositions.map past.requestOf).map Request.pair).Perm
      (past.requests.map Request.pair).dedup := by
    rw [List.perm_ext_iff_of_nodup h.distinct (List.nodup_dedup _)]
    intro pair
    simp only [List.mem_dedup, List.mem_map (f := Request.pair), h.asked]
  rw [← hperm.length_eq, List.length_map, List.length_map]
  rfl

/-- What was stored before a call is the same request after it. -/
theorem map_requestOf_congr {after : Chronicle}
    (hbirths : ∀ mapping ∈ past.heap.cache.kept,
      after.births mapping.token = past.births mapping.token) :
    past.heap.cache.compositions.map after.requestOf =
      past.heap.cache.compositions.map past.requestOf := by
  apply List.map_congr_left
  intro stored hstored
  obtain ⟨hbase, hnext, hcomposed⟩ := MappingCache.mem_kept hstored
  simp only [requestOf, born, hbirths _ hbase, hbirths _ hnext, hbirths _ hcomposed]

/-- A call that neither asks the cache nor clears it. -/
theorem Recorded.of_cache_eq (h : past.Recorded) {after : Chronicle} (hsound : after.heap.Sound)
    (hnumbered : Numbered after.births after.heap.allocations after.heap.live)
    (hcache : after.heap.cache = past.heap.cache) (hrequests : after.requests = past.requests)
    (hbirths : ∀ mapping ∈ past.heap.cache.kept,
      after.births mapping.token = past.births mapping.token) : after.Recorded := by
  have hmap := map_requestOf_congr hbirths
  refine ⟨hsound, hnumbered, ?_, ?_⟩
  · intro request
    rw [hrequests, hcache, hmap]
    exact h.asked request
  · rw [hcache, hmap]
    exact h.distinct

section Composing

variable {allocator : Allocator} {base next : Nat} {first second : Shared Mapping}

/-- Composing two held mappings, when the cache knows the pair and when it does not. -/
theorem step_compose_cases (allocator : Allocator) (past : Chronicle)
    (hbase : past.heap.held[base]? = some first) (hnext : past.heap.held[next]? = some second) :
    (∃ stored, past.heap.cache.find? first second = some stored ∧
      past.step allocator (.compose base next) =
        ⟨⟨stored.composed :: past.heap.held,
            { past.heap.cache with hits := past.heap.cache.hits + 1 },
            past.heap.allocations + 1⟩,
          past.births,
          ⟨past.born first, past.born second, past.born stored.composed⟩ :: past.requests⟩) ∨
    (past.heap.cache.find? first second = none ∧ ∃ made : Shared Mapping,
      made = ⟨past.heap.fresh allocator, first.value.compose second.value⟩ ∧
      past.step allocator (.compose base next) =
        ⟨⟨made :: past.heap.held,
            { past.heap.cache with
              compositions := ⟨first, second, made⟩ :: past.heap.cache.compositions },
            past.heap.allocations + 1⟩,
          Function.update past.births made.token past.heap.allocations,
          ⟨past.born first, past.born second, ⟨made, past.heap.allocations⟩⟩ ::
            past.requests⟩) := by
  rcases MappingCache.compose_cases past.heap.cache first second (past.heap.fresh allocator) with
    ⟨stored, hfind, hcompose⟩ | ⟨hfind, hcompose⟩
  · refine .inl ⟨stored, hfind, ?_⟩
    simp only [step, Heap.step, birthsAfter, Heap.made?, hbase, hnext, hcompose, hfind]
    rfl
  · refine .inr ⟨hfind, _, rfl, ?_⟩
    simp only [step, Heap.step, birthsAfter, Heap.made?, hbase, hnext, hcompose, hfind]
    simp

/-- What the cache finds is stored for the very pair. -/
theorem Recorded.of_find? (h : past.Recorded) (hfirst : first ∈ past.heap.held)
    (hsecond : second ∈ past.heap.held) {stored : Composition}
    (hfind : past.heap.cache.find? first second = some stored) :
    stored ∈ past.heap.cache.compositions ∧
      past.requestOf stored = ⟨past.born first, past.born second, past.born stored.composed⟩ := by
  obtain ⟨hstored, hbase, hnext⟩ := MappingCache.of_find? hfind
  obtain ⟨hkeptBase, hkeptNext, -⟩ := MappingCache.mem_kept hstored
  have heq {kept asked : Shared Mapping} (hkept : kept ∈ past.heap.cache.kept)
      (hasked : asked ∈ past.heap.held) (htoken : kept.token = asked.token) : kept = asked := by
    have hvalue := h.sound.coherent kept (List.mem_append_right _ hkept) asked
      (List.mem_append_left _ hasked) htoken
    cases kept
    cases asked
    exact congr (congrArg Shared.mk htoken) hvalue
  refine ⟨hstored, ?_⟩
  rw [requestOf, heq hkeptBase hfirst hbase, heq hkeptNext hsecond hnext]

/-- A pair that the cache does not find is none of the pairs that it was asked for. -/
theorem Recorded.pair_notMem_of_find? (h : past.Recorded) (hfirst : first ∈ past.heap.held)
    (hsecond : second ∈ past.heap.held) (hfind : past.heap.cache.find? first second = none) :
    (past.births first.token, past.births second.token) ∉
      (past.heap.cache.compositions.map past.requestOf).map Request.pair := by
  intro hmem
  obtain ⟨request, hrequest, hpair⟩ := List.mem_map.mp hmem
  obtain ⟨stored, hstored, rfl⟩ := List.mem_map.mp hrequest
  obtain ⟨hkeptBase, hkeptNext, -⟩ := MappingCache.mem_kept hstored
  obtain ⟨hbase, hnext⟩ := Prod.mk.inj hpair
  have hrefused := List.find?_eq_none.mp hfind stored hstored
  apply hrefused
  rw [Bool.and_eq_true]
  exact ⟨(h.same_iff (List.mem_append_right _ hkeptBase) (List.mem_append_left _ hfirst)).mpr hbase,
    (h.same_iff (List.mem_append_right _ hkeptNext) (List.mem_append_left _ hsecond)).mpr hnext⟩

theorem Recorded.step_compose (h : past.Recorded) (hbase : past.heap.held[base]? = some first)
    (hnext : past.heap.held[next]? = some second) :
    (past.step allocator (.compose base next)).Recorded := by
  have hfirst := List.mem_of_getElem? hbase
  have hsecond := List.mem_of_getElem? hnext
  have hsound : (past.step allocator (.compose base next)).heap.Sound :=
    h.sound.step (.compose base next)
  rcases step_compose_cases allocator past hbase hnext with
    ⟨stored, hfind, hstep⟩ | ⟨hfind, made, hmade, hstep⟩
  · obtain ⟨hstored, hrequest⟩ := h.of_find? hfirst hsecond hfind
    rw [hstep] at hsound ⊢
    refine ⟨hsound, h.numbered.mono (Nat.le_succ _) ?_, ?_, h.distinct⟩
    · intro mapping hmapping
      rcases List.mem_cons.mp hmapping with rfl | hmapping
      · exact List.mem_append_right _ (MappingCache.mem_kept hstored).2.2
      · exact hmapping
    · -- The pair was asked for before, and answered in the same way.
      intro request
      rw [List.mem_cons, h.asked request, ← hrequest]
      exact or_iff_right_of_imp fun heq ↦ heq ▸ List.mem_map_of_mem hstored
  · have hfresh : made.token ∉ past.heap.live.map Shared.token := by
      rw [hmade]
      exact past.heap.fresh_notMem
    have hbirths {mapping : Shared Mapping} (hmapping : mapping ∈ past.heap.live) :
        Function.update past.births made.token past.heap.allocations mapping.token =
          past.births mapping.token := Numbered.update_eq hfresh hmapping
    have hself : Function.update past.births made.token past.heap.allocations made.token =
      past.heap.allocations := Function.update_self ..
    have hold := @map_requestOf_congr past (past.step allocator (.compose base next))
      fun mapping hmapping ↦ by
        rw [hstep]
        exact hbirths (List.mem_append_right _ hmapping)
    have hnew : (past.step allocator (.compose base next)).requestOf ⟨first, second, made⟩ =
        ⟨past.born first, past.born second, ⟨made, past.heap.allocations⟩⟩ := by
      rw [hstep]
      simp only [requestOf, born, hbirths (List.mem_append_left _ hfirst),
        hbirths (List.mem_append_left _ hsecond), hself]
    have hstored : (past.step allocator (.compose base next)).heap.cache.compositions.map
        (past.step allocator (.compose base next)).requestOf =
        ⟨past.born first, past.born second, ⟨made, past.heap.allocations⟩⟩ ::
          past.heap.cache.compositions.map past.requestOf := by
      rw [← hold, ← hnew, ← List.map_cons]
      congr 1
      rw [hstep]
    refine ⟨hsound, ?_, ?_, ?_⟩
    · rw [hstep]
      apply (h.numbered.cons made hfresh).mono (Nat.le_refl _)
      intro mapping hmapping
      simp only [Heap.live, MappingCache.kept, List.flatMap_cons, List.cons_append,
        List.nil_append, List.mem_cons, List.mem_append] at hmapping ⊢
      rcases hmapping with rfl | hmapping | rfl | rfl | rfl | hmapping
      · exact .inl rfl
      · exact .inr (.inl hmapping)
      · exact .inr (.inl hfirst)
      · exact .inr (.inl hsecond)
      · exact .inl rfl
      · exact .inr (.inr hmapping)
    · intro request
      rw [hstored, List.mem_cons, ← h.asked request, ← List.mem_cons, hstep]
    · rw [hstored, List.map_cons]
      exact List.nodup_cons.mpr ⟨h.pair_notMem_of_find? hfirst hsecond hfind, h.distinct⟩

end Composing

/-- Every call keeps the chronicle in step with what the cache stores. -/
theorem Recorded.step {allocator : Allocator} (h : past.Recorded) (call : HeapCall) :
    (past.step allocator call).Recorded := by
  have hsound : (past.step allocator call).heap.Sound := h.sound.step call
  cases call with
  | create mapping =>
    have hfresh := @Heap.fresh_notMem allocator past.heap
    have hnumbered := h.numbered.cons ⟨past.heap.fresh allocator, mapping⟩ hfresh
    exact h.of_cache_eq hsound hnumbered rfl rfl fun kept hkept ↦
      Numbered.update_eq hfresh (List.mem_append_right _ hkept)
  | share place =>
    refine h.of_cache_eq hsound (h.numbered.mono (Nat.le_refl _) ?_) rfl rfl fun _ _ ↦ rfl
    intro mapping hmapping
    simp only [Chronicle.step, Heap.step, Heap.live, List.mem_append,
      Option.mem_toList] at hmapping ⊢
    rcases hmapping with (hplace | hheld) | hkept
    · exact .inl (List.mem_of_getElem? hplace)
    · exact .inl hheld
    · exact .inr hkept
  | drop place =>
    refine h.of_cache_eq hsound (h.numbered.mono (Nat.le_refl _) ?_) rfl rfl fun _ _ ↦ rfl
    intro mapping hmapping
    simp only [Chronicle.step, Heap.step, Heap.live, List.mem_append] at hmapping ⊢
    exact hmapping.imp_left List.mem_of_mem_eraseIdx
  | compose base next =>
    cases hbase : past.heap.held[base]? with
    | none =>
      have hstep : past.step allocator (.compose base next) = past := by
        simp [Chronicle.step, Heap.step, birthsAfter, Heap.made?, hbase]
      rw [hstep]
      exact h
    | some first =>
      cases hnext : past.heap.held[next]? with
      | none =>
        have hstep : past.step allocator (.compose base next) = past := by
          simp [Chronicle.step, Heap.step, birthsAfter, Heap.made?, hbase, hnext]
        rw [hstep]
        exact h
      | some second => exact h.step_compose hbase hnext
  | clear =>
    refine ⟨hsound, h.numbered.mono (Nat.le_refl _) ?_, fun _ ↦ Iff.rfl, .nil⟩
    intro mapping hmapping
    simp only [Chronicle.step, Heap.step, Heap.live, MappingCache.kept, MappingCache.clear,
      List.flatMap_nil, List.append_nil] at hmapping
    exact List.mem_append_left _ hmapping

theorem recorded_run (allocator : Allocator) (calls : List HeapCall) :
    (run allocator calls).Recorded := by
  have hfrom (past : Chronicle) (h : past.Recorded) :
      (calls.foldl (Chronicle.step allocator) past).Recorded := by
    induction calls generalizing past with
    | nil => exact h
    | cons call calls ih => exact ih _ (h.step call)
  exact hfrom {} ⟨⟨nofun, nofun⟩, ⟨nofun, nofun⟩, fun _ ↦ Iff.rfl, .nil⟩

theorem run_append_singleton (allocator : Allocator) (calls : List HeapCall) (call : HeapCall) :
    run allocator (calls ++ [call]) = (run allocator calls).step allocator call :=
  List.foldl_append

/-- What a caller gets who asks for the composition of two held mappings, and what becomes of the
cache. -/
structure Answers (past after : Chronicle) (first second answer : Shared Mapping) : Prop where
  held : after.heap.held = answer :: past.heap.held
  value : answer.value = first.value.compose second.value
  again : ∀ request ∈ past.requests,
    request.pair = (past.births first.token, past.births second.token) →
      after.born answer = request.answer ∧
        after.heap.cache.hits = past.heap.cache.hits + 1 ∧
        after.heap.cache.size = past.heap.cache.size
  anew : (past.births first.token, past.births second.token) ∉ past.requests.map Request.pair →
    after.heap.cache.hits = past.heap.cache.hits ∧
      after.heap.cache.size = past.heap.cache.size + 1

theorem Recorded.exists_answers {allocator : Allocator} (h : past.Recorded) {base next : Nat}
    {first second : Shared Mapping} (hbase : past.heap.held[base]? = some first)
    (hnext : past.heap.held[next]? = some second) :
    ∃ answer, Answers past (past.step allocator (.compose base next)) first second answer := by
  have hfirst := List.mem_of_getElem? hbase
  have hsecond := List.mem_of_getElem? hnext
  have hpairs : (past.births first.token, past.births second.token) ∈
      (past.heap.cache.compositions.map past.requestOf).map Request.pair ↔
        (past.births first.token, past.births second.token) ∈ past.requests.map Request.pair := by
    simp only [List.mem_map (f := Request.pair), h.asked]
  rcases step_compose_cases allocator past hbase hnext with
    ⟨stored, hfind, hstep⟩ | ⟨hfind, made, hmade, hstep⟩
  · obtain ⟨hstored, hrequest⟩ := h.of_find? hfirst hsecond hfind
    have hknown : past.requestOf stored ∈ past.heap.cache.compositions.map past.requestOf :=
      List.mem_map_of_mem hstored
    have hvalue := h.sound.truthful stored hstored
    rw [hstep]
    refine ⟨stored.composed, rfl, ?_, ?_, ?_⟩
    · have hbaseEq : stored.base = first :=
        congrArg (fun request ↦ request.base.mapping) hrequest
      have hnextEq : stored.next = second :=
        congrArg (fun request ↦ request.next.mapping) hrequest
      rw [hvalue, hbaseEq, hnextEq]
    · intro request hasked hpair
      -- Each pair is stored once, so the stored composition answers just this request.
      have heq : request = past.requestOf stored :=
        List.inj_on_of_nodup_map h.distinct ((h.asked request).mp hasked) hknown
          (hpair.trans (by rw [hrequest]; rfl))
      exact ⟨by rw [heq]; rfl, rfl, rfl⟩
    · intro hnew
      have hpair := List.mem_map_of_mem (f := Request.pair) hknown
      rw [hrequest] at hpair
      exact absurd (hpairs.mp hpair) hnew
  · have hnew := h.pair_notMem_of_find? hfirst hsecond hfind
    rw [hstep]
    refine ⟨made, rfl, by rw [hmade], ?_, fun _ ↦ ⟨rfl, rfl⟩⟩
    intro request hasked hpair
    have hknown := List.mem_map_of_mem (f := Request.pair) hasked
    rw [hpair, ← hpairs] at hknown
    exact absurd hknown hnew

/-- Whatever calls came before, and whatever tokens the allocator gave again: composing answers with
the composition; a pair that was asked for since the last clearing gets the very mapping answered
then, and any other pair one more entry. So the cache holds one entry for each pair. -/
theorem compose_of_run (allocator : Allocator) (calls : List HeapCall) :
    (run allocator calls).heap = Heap.run allocator calls ∧
    (∀ first ∈ (run allocator calls).heap.live, ∀ second ∈ (run allocator calls).heap.live,
      first.same second ↔
        (run allocator calls).births first.token = (run allocator calls).births second.token) ∧
    (run allocator calls).heap.cache.size =
      ((run allocator calls).requests.map Request.pair).dedup.length ∧
    (∀ (base next : Nat) (first second : Shared Mapping),
      (run allocator calls).heap.held[base]? = some first →
      (run allocator calls).heap.held[next]? = some second →
        ∃ answer, Answers (run allocator calls) (run allocator (calls ++ [.compose base next]))
          first second answer) ∧
    (run allocator (calls ++ [.clear])).heap.cache.size = 0 ∧
    (run allocator (calls ++ [.clear])).heap.cache.hits =
      (run allocator calls).heap.cache.hits := by
  have hrecorded := recorded_run allocator calls
  refine ⟨heap_run allocator calls, fun _ hfirst _ hsecond ↦ hrecorded.same_iff hfirst hsecond,
    hrecorded.size_eq, ?_, ?_, ?_⟩
  · intro base next first second hbase hnext
    rw [run_append_singleton]
    exact hrecorded.exists_answers hbase hnext
  · rw [run_append_singleton]
    rfl
  · rw [run_append_singleton]
    rfl

/-- The first mapping is dropped and its token given again, then two mappings are composed, the
answer is dropped, and the two are composed again. -/
def composedTwice : List HeapCall :=
  [.create (.ofList [7]), .drop 0, .create (.ofList [2, 1, 0]), .create (.ofList [0, 0, 2]),
    .compose 1 0, .drop 0]

theorem compose_of_run_again :
    ∃ answer, Answers (run .above composedTwice) (run .above (composedTwice ++ [.compose 1 0]))
        ⟨1, .ofList [2, 1, 0]⟩ ⟨2, .ofList [0, 0, 2]⟩ answer ∧
      answer.value = .ofList [2, 2, 0] ∧
      (run .above (composedTwice ++ [.compose 1 0])).heap.cache.hits = 1 ∧
      (run .above (composedTwice ++ [.compose 1 0])).heap.cache.size = 1 := by
  obtain ⟨-, -, -, hcompose, -⟩ := compose_of_run .above composedTwice
  obtain ⟨answer, hanswer⟩ := hcompose 1 0 ⟨1, .ofList [2, 1, 0]⟩ ⟨2, .ofList [0, 0, 2]⟩ rfl rfl
  obtain ⟨-, hhits, hsize⟩ := hanswer.again _ List.mem_cons_self rfl
  refine ⟨answer, hanswer, hanswer.value.trans ?_, hhits, hsize⟩
  simp [Mapping.compose, Mapping.ofList, Mapping.size, Mapping.target?]

end Chronicle

end Columnar
