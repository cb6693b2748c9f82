import MemoryAllocator.Client

/-! Who owns what: at every point of a run the taken blocks are exactly the blocks of the live
allocations, and the list covers exactly what has been mapped. -/
namespace MemoryAllocator
open Foundation

/-- A block serves an allocation: it holds the bytes asked for and wastes at most 40. -/
structure Block.Serves (b : Block) (a : Allocation) : Prop where
  pointer : b.contents = a.pointer
  enough : max a.request blockMinCapacity ≤ b.capacity
  tight : b.capacity ≤ max a.request blockMinCapacity + 40

/-- Live allocations and taken blocks correspond one to one. -/
structure Owned (taken : List Block) (live : List Allocation) : Prop where
  served : ∀ a ∈ live, ∃ b ∈ taken, b.Serves a
  distinct : (live.map Allocation.pointer).Nodup
  owned : ∀ b ∈ taken, ∃ a ∈ live, a.pointer = b.contents

theorem Owned.nil : Owned [] [] := ⟨by simp, List.nodup_nil, by simp⟩

section
variable {pre post : List Block} {b : Block} {live : List Allocation}

theorem contents_ne (distinct : ((pre ++ b :: post).map Block.addr).Nodup) {c : Block}
    (member : c ∈ pre ++ post) : c.contents ≠ b.contents := by
  intro same
  have addr : c.addr = b.addr := Nat.add_right_cancel same
  have moved : (b.addr :: (pre ++ post).map Block.addr).Nodup := by
    refine (List.Perm.nodup_iff ?_).mp distinct
    exact List.perm_middle.map Block.addr
  exact (List.nodup_cons.mp moved).1 (addr ▸ List.mem_map_of_mem member)

theorem mem_around {c : Block} (member : c ∈ pre ++ b :: post) : c = b ∨ c ∈ pre ++ post := by
  simp only [List.mem_append, List.mem_cons] at member ⊢
  tauto

theorem mem_of_around {c : Block} (member : c ∈ pre ++ post) : c ∈ pre ++ b :: post := by
  rcases List.mem_append.mp member with front | back
  · exact List.mem_append_left _ front
  · exact List.mem_append_right _ (List.mem_cons_of_mem b back)

theorem Owned.obtain (owned : Owned (pre ++ post) live) {a : Allocation}
    (distinct : ((pre ++ b :: post).map Block.addr).Nodup) (serves : b.Serves a) :
    Owned (pre ++ b :: post) (a :: live) := by
  refine ⟨?_, ?_, ?_⟩
  · intro a' member
    rcases List.mem_cons.mp member with rfl | old
    · exact ⟨b, by simp, serves⟩
    · obtain ⟨c, inside, serves'⟩ := owned.served a' old
      exact ⟨c, mem_of_around inside, serves'⟩
  · refine List.nodup_cons.mpr ⟨?_, owned.distinct⟩
    intro twice
    obtain ⟨a', old, same⟩ := List.mem_map.mp twice
    obtain ⟨c, inside, serves'⟩ := owned.served a' old
    exact contents_ne distinct inside (serves'.pointer.trans (same.trans serves.pointer.symm))
  · intro c member
    rcases mem_around member with rfl | inside
    · exact ⟨a, List.mem_cons_self, serves.pointer.symm⟩
    · obtain ⟨a', old, same⟩ := owned.owned c inside
      exact ⟨a', List.mem_cons_of_mem a old, same⟩

theorem mem_dropped {a : Allocation} {pointer : Nat} :
    a ∈ dropped live pointer ↔ a ∈ live ∧ a.pointer ≠ pointer := by
  simp [dropped]

theorem Owned.drop (owned : Owned (pre ++ b :: post) live)
    (distinct : ((pre ++ b :: post).map Block.addr).Nodup) :
    Owned (pre ++ post) (dropped live b.contents) := by
  refine ⟨?_, ?_, ?_⟩
  · intro a member
    obtain ⟨old, other⟩ := mem_dropped.mp member
    obtain ⟨c, inside, serves⟩ := owned.served a old
    rcases mem_around inside with rfl | around
    · exact absurd serves.pointer.symm other
    · exact ⟨c, around, serves⟩
  · exact owned.distinct.sublist (List.filter_sublist.map _)
  · intro c member
    obtain ⟨a, old, same⟩ := owned.owned c (mem_of_around member)
    refine ⟨a, mem_dropped.mpr ⟨old, ?_⟩, same⟩
    rw [same]
    exact contents_ne distinct member

end

/-- A request either fails and takes nothing, or takes exactly the block it returns. -/
theorem Outcome.takes {pageSize query : Nat} {answer : Answers} {blocks : List Block} {r : Reply}
    (outcome : Outcome pageSize answer query blocks r)
    (serves : ∀ {before last region events}, Searched query blocks (.exhausted before last) →
      requestRegion answer last.stop (regionSize pageSize query) = (region, events) →
      region ≠ mapFailed → query ≤ (freshBlock region (regionSize pageSize query)).capacity) :
    (r.pointer = null ∧ takens r.blocks = takens blocks) ∨
      ∃ pre post b, takens blocks = pre ++ post ∧ takens r.blocks = pre ++ b :: post ∧
        b.contents = r.pointer ∧ query ≤ b.capacity ∧ b.capacity ≤ query + 40 := by
  cases outcome with
  | @found before after good searched =>
      obtain ⟨free, fits⟩ := Block.fits_iff.mp searched.decides.1
      have same := takens_fuses searched.fuses
      simp only [SearchResult.list, takens_append, takens_cons_free free] at same
      obtain ⟨enough, tight⟩ := served_capacity fits
      refine .inr ⟨takens before, takens after, good.served query, same.symm, ?_,
        served_contents query good, enough, tight⟩
      simp only [takens_append, takens_carve]
      rfl
  | refused searched _ => exact .inl ⟨rfl, takens_fuses searched.fuses⟩
  | @grown before front last block region events searched asked mapped grew =>
      have fits := growth_serves (serves searched asked mapped) grew
      obtain ⟨same, _⟩ := growth_takens rfl grew
      have kept : takens (before ++ [last]) = takens blocks := takens_fuses searched.fuses
      obtain ⟨enough, tight⟩ := served_capacity fits
      refine .inr ⟨takens front, [], block.served query, ?_, ?_, served_contents query block,
        enough, tight⟩
      · rw [List.append_nil, same, kept]
      · simp only [serveLast, if_pos fits, takens_append, takens_carve]

/-- Every mapped region lies behind the first page and is not empty. -/
def Placed (os : Platform) (calls : List MmapEvent) : Prop :=
  ∀ r ∈ regions calls, os.pageSize ≤ r.start ∧ 0 < r.length

structure Invariant (os : Platform) (s : System) (blocks : List Block) : Prop where
  heap : Heap s.machine blocks
  owned : Owned (takens blocks) s.live
  placed : Placed os s.machine.calls

theorem WellFormed.addr_nodup {blocks : List Block} (wf : WellFormed blocks) :
    (blocks.map Block.addr).Nodup := by
  refine List.pairwise_map.mpr (wf.pairwise.imp ?_)
  intro a b apart same
  simp only [Span.Apart, Span.stop, Block.span, Block.size, contentsOffset] at apart
  omega

theorem takens_addr_nodup {blocks : List Block} (wf : WellFormed blocks) :
    ((takens blocks).map Block.addr).Nodup :=
  wf.addr_nodup.sublist (List.filter_sublist.map _)

theorem last_region {calls : List MmapEvent} {before : List Block} {last : Block}
    (tiled : extents (before ++ [last]) = footprint (regions calls))
    (positive : ∀ r ∈ regions calls, 0 < r.length) :
    (regions calls).getLast?.map Span.stop = some last.stop := by
  rcases List.eq_nil_or_concat (regions calls) with none | ⟨earlier, r, some⟩
  · rw [none, extents_append] at tiled
    have empty := congrArg List.length tiled
    have nonempty := WellFormed.size_pos last
    simp only [extents_cons, extents_nil, List.append_nil, List.length_append, Span.cells,
      Block.span, cells_length, footprint_nil, List.length_nil] at empty
    omega
  · rw [List.concat_eq_append] at some
    rw [some] at tiled positive ⊢
    simp only [List.getLast?_append, List.getLast?_singleton, Option.some_or, Option.map_some]
    refine congrArg Option.some (Eq.symm ?_)
    have same : footprint (before.map Block.span ++ [last.span]) = footprint (earlier ++ [r]) := by
      simpa [extents] using tiled
    exact stop_eq_of_footprint_eq (WellFormed.size_pos last) (positive r (by simp)) same

theorem Placed.request {os : Platform} {calls events : List MmapEvent} {hint query region : Nat}
    (placed : Placed os calls)
    (asked : requestRegion (os.since calls) hint (regionSize os.pageSize query) =
      (region, events)) : Placed os (calls ++ events) := by
  intro r member
  rw [regions_append, requestRegion_regions asked] at member
  rcases List.mem_append.mp member with old | new
  · exact placed r old
  · split at new
    · cases new
    · rename_i mapped
      obtain ⟨nonnull, aligned, _, _⟩ := requestRegion_lawful asked mapped
      obtain rfl := List.mem_singleton.mp new
      have large := (regionSize_bounds os.pageSize query).1
      simp only [regionMinSize] at large
      exact ⟨Nat.le_of_dvd (Nat.pos_of_ne_zero nonnull) aligned, by simp only; omega⟩

theorem Placed.reply {os : Platform} {calls : List MmapEvent} {query : Nat} {blocks : List Block}
    {r : Reply} (placed : Placed os calls)
    (outcome : Outcome os.pageSize (os.since calls) query blocks r) :
    Placed os (calls ++ r.events) := by
  cases outcome with
  | found => simpa using placed
  | refused _ asked => exact placed.request asked
  | grown _ asked _ _ => exact placed.request asked

theorem Heap.behind {os : Platform} {m : Machine} {blocks : List Block} (heap : Heap m blocks)
    (placed : Placed os m.calls) {b : Block} (member : b ∈ blocks) : os.pageSize ≤ b.addr := by
  have inside : b.addr ∈ extents blocks := by
    refine mem_extents.mpr ⟨b, member, le_refl _, ?_⟩
    simp only [Block.stop, Block.size, contentsOffset]
    omega
  rw [heap.tiled] at inside
  obtain ⟨r, among, lower, _⟩ := mem_footprint.mp inside
  exact (placed r among).1.trans lower

namespace Invariant

variable {os : Platform} {s : System} {blocks : List Block}

theorem positive (invariant : Invariant os s blocks) :
    ∀ r ∈ regions s.machine.calls, 0 < r.length :=
  fun r member => (invariant.placed r member).2

theorem hint (invariant : Invariant os s blocks) {before : List Block} {last : Block}
    {query : Nat} (searched : Searched query blocks (.exhausted before last)) :
    last.stop = heapEnd s.machine.calls := by
  have ends := last_region ((extents_fuses searched.fuses).trans invariant.heap.tiled)
    invariant.positive
  rw [heapEnd, ends, Option.getD_some]

/-- A request that is admissible, or refused, gets no block that is too small. -/
theorem serves (invariant : Invariant os s blocks) {query : Nat}
    (servable : Servable os s.machine.calls query) {before : List Block} {last : Block}
    {region : Nat} {events : List MmapEvent}
    (searched : Searched (max query blockMinCapacity) blocks (.exhausted before last))
    (asked : requestRegion (os.since s.machine.calls) last.stop
      (regionSize os.pageSize (max query blockMinCapacity)) = (region, events))
    (mapped : region ≠ mapFailed) : max query blockMinCapacity ≤
      (freshBlock region (regionSize os.pageSize (max query blockMinCapacity))).capacity := by
  rcases servable with admissible | refused
  · exact freshBlock_serves os.pageSize_pos admissible region
  · rw [invariant.hint searched] at asked
    rw [Refused, asked] at refused
    exact absurd refused mapped

/-- A request that is answered with null was refused, and fused the whole list. -/
theorem refused_of_null (invariant : Invariant os s blocks) {query : Nat} {r : Reply}
    (outcome : Outcome os.pageSize (os.since s.machine.calls) (max query blockMinCapacity) blocks r)
    (failed : r.pointer = null) : Refused os s.machine.calls query ∧
      r.blocks = Block.fusion.coalesce blocks ∧ ∃ size, r.events =
        [⟨mapPagesCall (heapEnd s.machine.calls) size mapFixedNoreplace, mapFailed⟩,
          ⟨mapPagesCall (heapEnd s.machine.calls) size 0, mapFailed⟩] := by
  cases outcome with
  | @found before after good _ => exact absurd failed good.contents_ne_null
  | refused searched asked =>
      rw [invariant.hint searched] at asked
      refine ⟨by rw [Refused, asked], searched.fused.symm, _, requestRegion_refused asked⟩
  | @grown before front last block region events _ _ _ _ =>
      exact absurd failed block.contents_ne_null

theorem block_of_live (invariant : Invariant os s blocks) {a : Allocation} (live : a ∈ s.live) :
    ∃ pre b post, blocks = pre ++ b :: post ∧ b.isFree = false ∧ b.Serves a := by
  obtain ⟨b, taken, serves⟩ := invariant.owned.served a live
  obtain ⟨member, isTaken⟩ := mem_takens.mp taken
  obtain ⟨pre, post, rfl⟩ := List.append_of_mem member
  exact ⟨pre, b, post, rfl, isTaken, serves⟩

theorem malloc_returns (invariant : Invariant os s blocks) (query : Nat) :
    ∃ pointer m', malloc os query s.machine = some (pointer, m') := by
  obtain ⟨pointer, m', returned, _⟩ := malloc_refines os query invariant.heap
  exact ⟨pointer, m', returned⟩

theorem free_returns (invariant : Invariant os s blocks) {a : Allocation} (live : a ∈ s.live) :
    ∃ m', free os a.pointer s.machine = some ((), m') := by
  obtain ⟨pre, b, post, rfl, _, serves⟩ := invariant.block_of_live live
  obtain ⟨_, m', returned, _⟩ := free_absorbs os invariant.heap.holds
  rw [serves.pointer] at returned
  exact ⟨m', returned⟩

/-- `malloc` follows the allocator over lists, and a servable request keeps the invariant. -/
theorem malloc_step (invariant : Invariant os s blocks) {query pointer : Nat} {m' : Machine}
    {r : Reply} (servable : Servable os s.machine.calls query)
    (replied : ListAllocator.malloc os.pageSize (os.since s.machine.calls) query blocks = r)
    (returned : malloc os query s.machine = some (pointer, m')) :
    pointer = r.pointer ∧ m'.calls = s.machine.calls ++ r.events ∧
      Evolves s.machine blocks m' r.blocks ∧
      Invariant os ⟨m', obtained s.live query pointer⟩ r.blocks := by
  obtain ⟨outcome, rfl, calls, evolves, heap'⟩ := replied ▸ invariant.heap.replied returned
  refine ⟨rfl, calls, evolves, heap', ?_, ?_⟩
  · have owned := invariant.owned
    rcases outcome.takes (invariant.serves servable) with
      ⟨failed, same⟩ | ⟨pre, post, b, before, after, pointer, enough, tight⟩
    · rwa [same, obtained, if_pos failed]
    · have nonnull : r.pointer ≠ null := pointer ▸ b.contents_ne_null
      have distinct := takens_addr_nodup heap'.holds.wellFormed
      rw [after] at distinct ⊢
      rw [before] at owned
      rw [obtained, if_neg nonnull]
      exact owned.obtain distinct ⟨pointer, enough, tight⟩
  · rw [calls]
    exact invariant.placed.reply outcome

theorem free_step (invariant : Invariant os s blocks) {a : Allocation} {m' : Machine}
    (live : a ∈ s.live) (returned : free os a.pointer s.machine = some ((), m')) :
    m'.calls = s.machine.calls ∧ Invariant os ⟨m', dropped s.live a.pointer⟩
      (ListAllocator.free a.pointer blocks) := by
  obtain ⟨pre, b, post, rfl, taken, serves⟩ := invariant.block_of_live live
  rw [← serves.pointer] at returned ⊢
  have merges := (free_absorbs os invariant.heap.holds).of_returns returned
  refine ⟨merges.calls, invariant.heap.free merges, ?_, ?_⟩
  · have same := takens_fuses merges.fuses
    have owned := invariant.owned
    have distinct := takens_addr_nodup invariant.heap.holds.wellFormed
    rw [takens_append, takens_cons_taken taken] at owned distinct
    rw [same, takens_append, takens_cons_free (b := b.release) rfl]
    exact owned.drop distinct
  · rw [merges.calls]
    exact invariant.placed

theorem write_step (invariant : Invariant os s blocks) {a : Allocation} {address : Nat}
    {byte : UInt8} (live : a ∈ s.live) (lower : a.span.start ≤ address)
    (upper : address < a.span.stop) :
    Invariant os ⟨{ s.machine with memory := writeBytes s.machine.memory address [byte] }, s.live⟩
      blocks := by
  obtain ⟨pre, b, post, rfl, taken, serves⟩ := invariant.block_of_live live
  have pointer := serves.pointer
  have enough := serves.enough
  refine ⟨⟨?_, invariant.heap.start, invariant.heap.tiled⟩, invariant.owned, invariant.placed⟩
  apply invariant.heap.holds.write_contents
  intro x outside
  simp only [Allocation.span, Span.stop] at lower upper
  simp only [Block.contents, Block.stop, Block.size] at pointer outside
  exact writeBytes_outside (by simp only [List.length_singleton]; omega)

theorem after_malloc (invariant : Invariant os s blocks) {s' : System} {query pointer : Nat}
    {r : Reply} (step : SafeStep os s (.malloc query pointer) s')
    (replied : ListAllocator.malloc os.pageSize (os.since s.machine.calls) query blocks = r) :
    pointer = r.pointer ∧ s'.machine.calls = s.machine.calls ++ r.events ∧
      s'.live = obtained s.live query pointer ∧ Invariant os s' r.blocks := by
  obtain ⟨safe, step⟩ := step
  cases step with
  | malloc _ returned =>
      obtain ⟨same, calls, _, invariant'⟩ := invariant.malloc_step safe replied returned
      exact ⟨same, calls, rfl, invariant'⟩

theorem after_free (invariant : Invariant os s blocks) {s' : System} {pointer : Nat}
    (step : SafeStep os s (.free pointer) s') :
    (∃ a ∈ s.live, a.pointer = pointer) ∧ s'.machine.calls = s.machine.calls ∧
      s'.live = dropped s.live pointer ∧
      Invariant os s' (ListAllocator.free pointer blocks) := by
  obtain ⟨_, step⟩ := step
  generalize freed : Action.free pointer = action at step
  cases step with
  | malloc => cases freed
  | write => cases freed
  | free member returned =>
      obtain rfl := Action.free.inj freed
      obtain ⟨calls, invariant'⟩ := invariant.free_step member returned
      exact ⟨⟨_, member, rfl⟩, calls, rfl, invariant'⟩

theorem step (invariant : Invariant os s blocks) {s' : System} {action : Action}
    (taken : SafeStep os s action s') : ∃ blocks', Invariant os s' blocks' := by
  obtain ⟨safe, step⟩ := taken
  cases step with
  | malloc _ returned => exact ⟨_, (invariant.malloc_step safe rfl returned).2.2.2⟩
  | free live returned => exact ⟨_, (invariant.free_step live returned).2⟩
  | write live lower upper => exact ⟨_, invariant.write_step live lower upper⟩

end Invariant

/-- A machine and the list it holds, with the calls of `mmap` made since some moment. -/
def Represents (os : Platform) (calls : List MmapEvent) (s : System) (t : ListState) : Prop :=
  Invariant os s t.blocks ∧ s.machine.calls = calls ++ t.later

theorem represents_follows (os : Platform) (calls : List MmapEvent) :
    Follows (SafeStep os) Action.request Action.reply
      (ListState.perform os.pageSize (os.since calls)) (Represents os calls) where
  silent := by
    rintro s s' t action ⟨invariant, same⟩ ⟨_, step⟩ silent
    cases step with
    | malloc => cases silent
    | free => cases silent
    | write live lower upper => exact ⟨invariant.write_step live lower upper, same⟩
  matched := by
    rintro s s' ⟨blocks, later⟩ action request ⟨invariant, same⟩ ⟨safe, step⟩ asked
    cases step with
    | malloc _ returned =>
        obtain rfl := Option.some.inj asked
        obtain ⟨replied, grown, _, invariant'⟩ := invariant.malloc_step safe rfl returned
        simp only [ListState.perform, since_append, ← same]
        refine ⟨replied, invariant', ?_⟩
        exact grown.trans ((congrArg (· ++ _) same).trans (List.append_assoc _ _ _))
    | free live returned =>
        obtain rfl := Option.some.inj asked
        obtain ⟨kept, invariant'⟩ := invariant.free_step live returned
        exact ⟨rfl, invariant', kept.trans same⟩
    | write => cases asked

theorem init_invariant {os : Platform} {initial : Nat} {memory : Memory} {m : Machine}
    (returned : heapInit os initial ⟨memory, [], []⟩ = some (heapStart, m)) :
    requestRegion (os.since []) heapStart (regionSize os.pageSize initial) = (heapStart, m.calls) ∧
      Invariant os ⟨m, []⟩ [freshBlock heapStart (regionSize os.pageSize initial)] := by
  cases asked : requestRegion (os.since []) heapStart (regionSize os.pageSize initial) with
  | mk region events =>
      have places := (heapInit_places os (m := ⟨memory, [], []⟩) rfl asked).of_returns
        returned
      obtain ⟨calls, ⟨_, failed⟩ | ⟨mapped, rfl, holds⟩⟩ := places
      · exact absurd failed (by decide)
      · have one := requestRegion_one asked mapped
        have none : Placed os [] := by simp [Placed]
        have placed := none.request asked
        rw [List.nil_append, ← calls] at placed
        rw [← calls] at one
        exact ⟨calls ▸ rfl, heap_of_init holds (freshBlock_size _ _ _) one, Owned.nil, placed⟩

theorem SafelyReachable.invariant {os : Platform} {s : System} (reachable : SafelyReachable os s) :
    ∃ blocks, Invariant os s blocks := by
  obtain ⟨start, actions, started, run⟩ := reachable
  obtain ⟨_, returned⟩ := started
  refine run.invariant (I := fun s => ∃ blocks, Invariant os s blocks) ?_
    ⟨_, (init_invariant returned).2⟩
  rintro s action s' ⟨blocks, invariant⟩ step
  exact invariant.step step

theorem Reachable.invariant {os : Platform} {s : System} (reachable : Reachable os s) :
    ∃ blocks, Invariant os s blocks := reachable.safely.invariant

end MemoryAllocator
