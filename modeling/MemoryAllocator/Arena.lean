import MemoryAllocator.Layout
import MemoryAllocator.Retry
import MemoryAllocator.Safety
import MemoryAllocator.Foundation.LowestFit

/-! The allocator without its list. As long as `mmap` grants its hints, it is lowest fit over
one range of addresses: no header, no order of blocks and no moment of merging can be told
from outside. -/
namespace MemoryAllocator
open Foundation

/-- The range up to some address, and the pieces that the taken blocks make up. -/
def arenaOf (stop : Nat) (blocks : List Block) : Arena :=
  ⟨heapStart, stop, {s | ∃ b ∈ takens blocks, b.span = s}⟩

/-- A piece is a header and the contents behind it. -/
def pieceSize (query : Nat) : Nat := contentsOffset + max query blockMinCapacity

def Action.arenaEvent : Action → Option ArenaEvent
  | .malloc query pointer =>
      some (if pointer = null then .refuse (pieceSize query)
        else .take (pieceSize query) (pointer - contentsOffset))
  | .free pointer => some (.give (pointer - contentsOffset))
  | .write _ _ => none

/-- By how much the range grows for a piece of a given size. -/
def arenaGrowth (pageSize size : Nat) : Nat := regionSize pageSize (size - contentsOffset)

/-- What is left of a block is split off if it has room for a header and the least contents. -/
def leastRest : Nat := contentsOffset + blockMinCapacity

abbrev ArenaStep (pageSize : Nat) : Arena → ArenaEvent → Arena → Prop :=
  LowestFit leastRest (arenaGrowth pageSize)

section
variable {l before after : List Block} {b good : Block} {query stop length : Nat}

theorem mem_arena_free (wf : WellFormed l) (filled : extents l = cells heapStart length) (x : Nat) :
    x ∈ (arenaOf (heapStart + length) l).free ↔ x ∈ freeCells l := by
  rw [mem_freeCells]
  constructor
  · rintro ⟨lower, upper, outside⟩
    have inside : x ∈ extents l := filled ▸ mem_cells.mpr ⟨lower, upper⟩
    obtain ⟨b, member, starts, ends⟩ := mem_extents.mp inside
    refine ⟨b, member, ?_, starts, ends⟩
    by_contra taken
    have isTaken := mem_takens.mpr ⟨member, Bool.eq_false_of_not_eq_true taken⟩
    exact outside b.span ⟨b, isTaken, rfl⟩ (mem_cells.mpr ⟨starts, ends⟩)
  · rintro ⟨b, member, free, starts, ends⟩
    have inside : x ∈ extents l := mem_extents.mpr ⟨b, member, starts, ends⟩
    obtain ⟨lower, upper⟩ := mem_cells.mp (filled ▸ inside)
    refine ⟨lower, upper, ?_⟩
    rintro _ ⟨c, isTaken, rfl⟩ within
    obtain ⟨among, taken⟩ := mem_takens.mp isTaken
    obtain ⟨starts', ends'⟩ := mem_cells.mp within
    have different : b ≠ c := by
      rintro rfl
      exact absurd (free.symm.trans taken) (by decide)
    have apart := block_apart wf member among different
    simp only [Span.Apart, Span.stop, Block.span, Block.stop] at apart ends starts' ends'
    omega

theorem arena_fits (wf : WellFormed l) (filled : extents l = cells heapStart length)
    {size x : Nat} :
    (arenaOf (heapStart + length) l).Fits size x ↔ cells x size ⊆ freeCells l := by
  constructor
  · intro fits y inside
    obtain ⟨lower, upper⟩ := mem_cells.mp inside
    exact (mem_arena_free wf filled y).mp (fits y lower upper)
  · intro inside y lower upper
    exact (mem_arena_free wf filled y).mpr (inside (mem_cells.mpr ⟨lower, upper⟩))

theorem stretch_le (wf : WellFormed l) (separated : Block.fusion.Separated l)
    (touching : Touching Block.span l) (member : good ∈ l) {size : Nat} (some : 0 < size)
    (inside : cells good.addr size ⊆ freeCells l) : size ≤ good.size := by
  obtain ⟨f, among, _, lower, upper⟩ := stretch_within separated touching some inside
  by_cases same : f = good
  · subst same
    exact Nat.add_le_add_iff_left.mp upper
  · have apart := block_apart wf among member same
    have nonempty := WellFormed.size_pos good
    simp only [Span.Apart, Span.stop, Block.span, Block.stop] at apart upper
    omega

theorem stretch_of_le (member : good ∈ l) (free : good.isFree = true) {size : Nat}
    (shorter : size ≤ good.size) : cells good.addr size ⊆ freeCells l := by
  intro y inside
  obtain ⟨lower, upper⟩ := mem_cells.mp inside
  refine mem_freeCells.mpr ⟨good, member, free, lower, ?_⟩
  simp only [Block.stop]
  omega

/-- Behind a free block of a settled list there is no free address. -/
theorem stop_not_free (wf : WellFormed l) (separated : Block.fusion.Separated l)
    (touching : Touching Block.span l) (member : good ∈ l) (free : good.isFree = true) :
    good.addr + good.size ∉ freeCells l := by
  intro inside
  -- one more free address behind the block would make the block longer
  have longer : cells good.addr (good.size + 1) ⊆ freeCells l := by
    intro y within
    obtain ⟨lower, upper⟩ := mem_cells.mp within
    by_cases last : y < good.addr + good.size
    · exact stretch_of_le member free (le_refl _) (mem_cells.mpr ⟨lower, last⟩)
    · obtain rfl : y = good.addr + good.size := by omega
      exact inside
  have bound := stretch_le wf separated touching member (Nat.succ_pos _) longer
  omega

/-- A block is split exactly if so many free addresses begin where it does. -/
theorem roomy_iff_splittable (query : Nat) (wf : WellFormed l)
    (separated : Block.fusion.Separated l) (touching : Touching Block.span l)
    (member : good ∈ l) (free : good.isFree = true) :
    cells good.addr (pieceSize query + leastRest) ⊆ freeCells l ↔
      good.Splittable (max query blockMinCapacity) := by
  simp only [Block.Splittable]
  constructor
  · intro inside
    have bound := stretch_le wf separated touching member
      (by simp only [leastRest, contentsOffset]; omega) inside
    simp only [pieceSize, leastRest, Block.size] at bound
    omega
  · intro splittable
    apply stretch_of_le member free
    simp only [pieceSize, leastRest, Block.size]
    omega

theorem served_length (query : Nat) (good : Block) :
    (good.served (max query blockMinCapacity)).span.length =
      if good.Splittable (max query blockMinCapacity) then pieceSize query else good.size := by
  unfold Block.served
  split <;> rfl

theorem takes_served (wf : WellFormed (before ++ good :: after))
    (filled : extents (before ++ good :: after) = cells heapStart length)
    (separated : Block.fusion.Separated (before ++ good :: after))
    (touching : Touching Block.span (before ++ good :: after))
    (fits : good.fits (max query blockMinCapacity) = true)
    (bad : ∀ b ∈ before, b.fits (max query blockMinCapacity) = false) :
    (arenaOf (heapStart + length) (before ++ good :: after)).Takes (pieceSize query) leastRest
      (good.served (max query blockMinCapacity)).span := by
  obtain ⟨free, enough⟩ := Block.fits_iff.mp fits
  have member : good ∈ before ++ good :: after := by simp
  have lowest := first_lowest separated touching fits bad
  have addr : (good.served (max query blockMinCapacity)).span.start = good.addr :=
    served_addr (max query blockMinCapacity) good
  have size := served_length query good
  have roomy := roomy_iff_splittable query wf separated touching member free
  rw [← arena_fits wf filled] at roomy
  have whole : pieceSize query ≤ good.size := by
    simp only [pieceSize, Block.size]
    omega
  constructor
  · exact stretch_pos (max query blockMinCapacity)
  · rw [addr]
    simp only [arena_fits wf filled]
    exact lowest
  · rw [addr, size, arena_fits wf filled]
    apply stretch_of_le member free
    split
    · exact whole
    · exact le_refl _
  · rw [size]
    split
    · exact le_refl _
    · exact whole
  · intro room
    rw [addr, roomy] at room
    rw [size, if_pos room]
  · intro none
    rw [addr, roomy] at none
    rw [Span.stop, addr, size, if_neg none, mem_arena_free wf filled]
    exact stop_not_free wf separated touching member free

end

section
variable {l l' m : List Block} {b : Block}

theorem arenaOf_congr (stop : Nat) (same : takens l = takens m) :
    arenaOf stop l = arenaOf stop m := by
  simp only [arenaOf, same]

theorem arenaOf_take (stop : Nat) {front back : List Block} (before : takens l = front ++ back)
    (after : takens l' = front ++ b :: back) :
    arenaOf stop l' = (arenaOf stop l).take b.span := by
  simp only [arenaOf, Arena.take, Arena.mk.injEq, true_and, before, after]
  ext s
  simp only [List.mem_append, List.mem_cons, Set.mem_ofPred_eq, Set.mem_insert_iff]
  constructor
  · rintro ⟨c, front | rfl | back, rfl⟩
    · exact .inr ⟨c, .inl front, rfl⟩
    · exact .inl rfl
    · exact .inr ⟨c, .inr back, rfl⟩
  · rintro (rfl | ⟨c, front | back, rfl⟩)
    · exact ⟨b, .inr (.inl rfl), rfl⟩
    · exact ⟨c, .inl front, rfl⟩
    · exact ⟨c, .inr (.inr back), rfl⟩

theorem arenaOf_give (stop : Nat) {front back : List Block}
    (distinct : ((front ++ b :: back).map Block.addr).Nodup)
    (before : takens l = front ++ b :: back) (after : takens l' = front ++ back) :
    arenaOf stop l' = (arenaOf stop l).give b.span := by
  simp only [arenaOf, Arena.give, Arena.mk.injEq, true_and, before, after]
  ext s
  simp only [Set.mem_ofPred_eq, Set.mem_sdiff, Set.mem_singleton_iff]
  constructor
  · rintro ⟨c, member, rfl⟩
    refine ⟨⟨c, mem_of_around member, rfl⟩, fun same => contents_ne distinct member ?_⟩
    exact congrArg (· + contentsOffset) (congrArg Span.start same)
  · rintro ⟨⟨c, member, rfl⟩, other⟩
    rcases mem_around member with rfl | around
    · exact absurd rfl other
    · exact ⟨c, around, rfl⟩

end

theorem heapEnd_append_none {calls events : List MmapEvent} (none : regions events = []) :
    heapEnd (calls ++ events) = heapEnd calls := by
  simp only [heapEnd, regions_append, none, List.append_nil]

section
variable {os : Platform} {s s' : System} {blocks : List Block} {query : Nat}

theorem Block.take_event (b : Block) (size : Nat) :
    (if b.contents = null then ArenaEvent.refuse size
      else .take size (b.contents - contentsOffset)) = .take size b.addr := by
  rw [if_neg b.contents_ne_null, Block.contents, Nat.add_sub_cancel]

theorem Invariant.arena_found (invariant : Invariant os s blocks)
    (none : gaps (regions s.machine.calls) = 0) {before after : List Block} {good : Block}
    (searched : Searched (max query blockMinCapacity) blocks (.found before good after)) :
    ArenaStep os.pageSize (arenaOf (heapEnd s.machine.calls) blocks)
      (.take (pieceSize query) good.addr) (arenaOf (heapEnd s.machine.calls)
        (before ++ (good.carve (max query blockMinCapacity) ++ after))) := by
  have gapless := invariant.gaps_eq.trans none
  have fuses := Fusion.fuses_coalesce (F := Block.fusion) blocks
  have settled : Block.fusion.coalesce blocks = before ++ good :: Block.fusion.coalesce after :=
    searched.fused
  have wf := invariant.heap.holds.wellFormed.fuses fuses
  have filled := (extents_fuses fuses).trans (invariant.one_stretch gapless)
  have separated := Fusion.coalesce_separated (F := Block.fusion) blocks
  have touching := settled_touching gapless
  have same := takens_fuses fuses
  rw [settled] at wf filled separated touching same
  obtain ⟨fits, bad⟩ := searched.decides
  have takes := takes_served wf filled separated touching fits bad
  rw [← invariant.stretch_end gapless, arenaOf_congr _ same] at takes
  have step : ArenaStep os.pageSize _ (.take (pieceSize query)
    (good.served (max query blockMinCapacity)).span.start) _ := .served takes
  have around : takens blocks = takens before ++ takens after := by
    rw [← same, takens_append, takens_cons_free (Block.fits_iff.mp fits).1,
      takens_fuses (Fusion.fuses_coalesce after)]
  have carved : takens (before ++ (good.carve (max query blockMinCapacity) ++ after)) =
      takens before ++ good.served (max query blockMinCapacity) :: takens after := by
    simp only [takens_append, takens_carve, List.cons_append, List.nil_append]
  rw [← arenaOf_take _ around carved] at step
  rwa [Block.span, served_addr] at step

theorem Invariant.takes_grown {before front : List Block} {last block fresh : Block}
    (invariant : Invariant os s (front ++ block.carve (max query blockMinCapacity)))
    (none : gaps (regions s.machine.calls) = 0)
    (searched : Searched (max query blockMinCapacity) blocks (.exhausted before last))
    (free : fresh.isFree = true) (grew : growth before last fresh = (front, block))
    (large : max query blockMinCapacity ≤ block.capacity) :
    (arenaOf (heapEnd s.machine.calls) (front ++ [block])).Takes (pieceSize query) leastRest
      (block.served (max query blockMinCapacity)).span := by
  have gapless := invariant.gaps_eq.trans none
  have cut := extents_carve (max query blockMinCapacity) block []
  have same : extents (front ++ [block]) =
      extents (front ++ block.carve (max query blockMinCapacity)) := by
    rw [extents_append, extents_append, ← cut, List.append_nil]
  have wf : WellFormed (front ++ [block]) := by
    refine invariant.heap.holds.wellFormed.of_extents same fun c member => ?_
    rcases List.mem_append.mp member with ahead | here
    · exact invariant.heap.holds.wellFormed.minCapacity c (List.mem_append_left _ ahead)
    · obtain rfl := List.mem_singleton.mp here
      exact (le_max_right _ _).trans large
  have touching : Touching Block.span (front ++ [block]) := by
    apply touching_of_spans
    rw [gaps_spans, same, ← gaps_spans, gapless]
  rw [invariant.stretch_end gapless]
  exact takes_served wf (same.trans (invariant.one_stretch gapless))
    (growth_separated (exhausted_separated searched) grew) touching
    (Block.fits_iff.mpr ⟨(growth_takens free grew).2, large⟩) (growth_bad searched.decides grew)

theorem Invariant.arena_extended {blocks' : List Block} (invariant : Invariant os s blocks)
    (invariant' : Invariant os s' blocks') (none : gaps (regions s.machine.calls) = 0)
    (none' : gaps (regions s'.machine.calls) = 0) {events : List MmapEvent} {region size : Nat}
    (calls : s'.machine.calls = s.machine.calls ++ events)
    (one : regions events = [⟨region, size⟩]) {l : List Block} (same : takens l = takens blocks) :
    arenaOf (heapEnd s'.machine.calls) l =
      (arenaOf (heapEnd s.machine.calls) blocks).extend size := by
  have more : mappedBytes events = size := by
    simp [mappedBytes, one]
  rw [invariant.stretch_end (invariant.gaps_eq.trans none),
    invariant'.stretch_end (invariant'.gaps_eq.trans none'), calls, mappedBytes_append, more,
    ← Nat.add_assoc, arenaOf_congr _ same]
  rfl

theorem Invariant.arena_nowhere (invariant : Invariant os s blocks)
    (none : gaps (regions s.machine.calls) = 0) {before : List Block} {last : Block}
    (searched : Searched (max query blockMinCapacity) blocks (.exhausted before last)) (x : Nat) :
    ¬ (arenaOf (heapEnd s.machine.calls) blocks).Fits (pieceSize query) x := by
  have gapless := invariant.gaps_eq.trans none
  rw [invariant.stretch_end gapless,
    arena_fits invariant.heap.holds.wellFormed (invariant.one_stretch gapless)]
  exact exhausted_nowhere searched gapless

theorem Invariant.arena_reply (invariant : Invariant os s blocks) {r : Reply}
    (none : gaps (regions s.machine.calls) = 0) (servable : Servable os s.machine.calls query)
    (outcome : Outcome os.pageSize (os.since s.machine.calls) (max query blockMinCapacity) blocks
      r) (invariant' : Invariant os s' r.blocks)
    (calls : s'.machine.calls = s.machine.calls ++ r.events)
    (none' : gaps (regions s'.machine.calls) = 0) :
    ArenaStep os.pageSize (arenaOf (heapEnd s.machine.calls) blocks)
      (if r.pointer = null then .refuse (pieceSize query)
        else .take (pieceSize query) (r.pointer - contentsOffset))
      (arenaOf (heapEnd s'.machine.calls) r.blocks) := by
  cases outcome with
  | @found before after good searched =>
      rw [Block.take_event, calls, List.append_nil]
      exact invariant.arena_found none searched
  | @refused before last events searched asked =>
      have kept : takens (before ++ [last]) = takens blocks := takens_fuses searched.fuses
      rw [if_pos rfl, calls, heapEnd_append_none (requestRegion_none asked rfl)]
      rw [arenaOf_congr _ kept]
      exact .refused (invariant.arena_nowhere none searched)
  | @grown before front last block region events searched asked mapped grew =>
      have large := growth_serves (invariant.serves servable searched asked mapped) grew
      obtain ⟨kept, free⟩ := growth_takens rfl grew
      simp only [serveLast, if_pos large] at invariant' ⊢
      have ahead : takens (front ++ [block]) = takens front ++ [] := by
        rw [takens_append, takens_cons_free free]
        rfl
      have taken : takens (front ++ [block]) = takens blocks := by
        rw [ahead, List.append_nil, kept]
        exact takens_fuses searched.fuses
      have grows : arenaGrowth os.pageSize (pieceSize query) =
          regionSize os.pageSize (max query blockMinCapacity) := by
        rw [arenaGrowth, pieceSize, Nat.add_sub_cancel_left]
      have extended := invariant.arena_extended invariant' none none' calls
        (requestRegion_one asked mapped) taken
      have takes := invariant'.takes_grown none' searched rfl grew large
      rw [extended, ← grows] at takes
      have step : ArenaStep os.pageSize _ (.take (pieceSize query)
          (block.served (max query blockMinCapacity)).span.start) _ :=
        .grown (invariant.arena_nowhere none searched) takes
      have addr : (block.served (max query blockMinCapacity)).span.start = block.addr :=
        served_addr _ _
      have carved : takens (front ++ block.carve (max query blockMinCapacity)) =
          takens front ++ block.served (max query blockMinCapacity) :: [] := by
        rw [takens_append, takens_carve]
      rw [addr, grows, ← extended, ← arenaOf_take _ ahead carved] at step
      rwa [Block.take_event]

theorem Invariant.arena_free (invariant : Invariant os s blocks) {a : Allocation}
    (live : a ∈ s.live) : ArenaStep os.pageSize (arenaOf (heapEnd s.machine.calls) blocks)
      (.give (a.pointer - contentsOffset))
      (arenaOf (heapEnd s.machine.calls) (ListAllocator.free a.pointer blocks)) := by
  obtain ⟨pre, b, post, rfl, taken, serves⟩ := invariant.block_of_live live
  obtain ⟨_, m', _, merges⟩ := free_absorbs os invariant.heap.holds
  have distinct := takens_addr_nodup invariant.heap.holds.wellFormed
  have before : takens (pre ++ b :: post) = takens pre ++ b :: takens post := by
    rw [takens_append, takens_cons_taken taken]
  have after : takens (ListAllocator.free b.contents (pre ++ b :: post)) =
      takens pre ++ takens post := by
    rw [takens_fuses merges.fuses, takens_append, takens_cons_free (b := b.release) rfl]
  have addr : a.pointer - contentsOffset = b.span.start := by
    rw [← serves.pointer, Block.contents, Nat.add_sub_cancel]
    rfl
  rw [before] at distinct
  rw [addr, ← serves.pointer, arenaOf_give _ distinct before after]
  exact .given ⟨b, by simp [before], rfl⟩

end

/-- A step after which no region lies anywhere but at the end of those before it. -/
def GrantedStep (os : Platform) (s : System) (action : Action) (s' : System) : Prop :=
  AdmissibleStep os s action s' ∧ gaps (regions s'.machine.calls) = 0

/-- A system, and the arena its taken blocks make up. -/
def Shows (os : Platform) (s : System) (A : Arena) : Prop :=
  ∃ blocks, Invariant os s blocks ∧ gaps (regions s.machine.calls) = 0 ∧
    arenaOf (heapEnd s.machine.calls) blocks = A

section
variable {os : Platform} {s s' : System} {A : Arena} {action : Action}

theorem Shows.silent (shows : Shows os s A) (quiet : action.arenaEvent = none)
    (step : GrantedStep os s action s') : Shows os s' A := by
  obtain ⟨blocks, invariant, _, same⟩ := shows
  obtain ⟨⟨_, step⟩, none⟩ := step
  cases step with
  | malloc => cases quiet
  | free => cases quiet
  | write live lower upper => exact ⟨blocks, invariant.write_step live lower upper, none, same⟩

theorem Shows.step (shows : Shows os s A) {event : ArenaEvent}
    (seen : action.arenaEvent = some event) (step : GrantedStep os s action s') :
    ∃ A', ArenaStep os.pageSize A event A' ∧ Shows os s' A' := by
  obtain ⟨blocks, invariant, none, rfl⟩ := shows
  obtain ⟨⟨admissible, step⟩, none'⟩ := step
  cases step with
  | malloc _ returned =>
      obtain rfl := Option.some.inj seen
      obtain ⟨outcome, pointed, _, _, _⟩ := invariant.heap.replied returned
      obtain ⟨_, calls, _, invariant'⟩ := invariant.malloc_step (.inl admissible) rfl returned
      have replied := invariant.arena_reply none (.inl admissible) outcome invariant' calls none'
      rw [← pointed] at replied
      exact ⟨_, replied, _, invariant', none', rfl⟩
  | free live returned =>
      obtain rfl := Option.some.inj seen
      obtain ⟨calls, invariant'⟩ := invariant.free_step live returned
      refine ⟨_, invariant.arena_free live, _, invariant', none', ?_⟩
      simp only [calls]
  | write => cases seen

theorem Invariant.displacements_le {blocks : List Block} (invariant : Invariant os s blocks)
    (step : AdmissibleStep os s action s') :
    displacements s.machine.calls ≤ displacements s'.machine.calls := by
  obtain ⟨_, step⟩ := step
  cases step with
  | malloc _ returned =>
      obtain ⟨_, _, grown, _, _⟩ := invariant.heap.replied returned
      rw [grown, displacements_append]
      exact Nat.le_add_right _ _
  | free live returned => rw [(invariant.free_step live returned).1]
  | write => exact le_refl _

/-- Where every hint has been granted in the end, it was granted all along. -/
theorem Run.granted {actions : List Action} (run : Run (AdmissibleStep os) s actions s')
    (reachable : ∃ blocks, Invariant os s blocks ∧
      gaps (regions s.machine.calls) = displacements s.machine.calls)
    (granted : displacements s'.machine.calls = 0) :
    Run (GrantedStep os) s actions s' ∧ displacements s.machine.calls = 0 := by
  induction run with
  | nil s => exact ⟨.nil s, granted⟩
  | cons first _ ih =>
      obtain ⟨blocks, invariant, counted⟩ := reachable
      obtain ⟨blocks', invariant'⟩ := invariant.step first.safe
      have counted' := invariant.displaced_step first counted
      obtain ⟨later, none⟩ := ih ⟨blocks', invariant', counted'⟩ granted
      have fewer := invariant.displacements_le first
      exact ⟨.cons ⟨first, counted'.trans none⟩ later, by omega⟩

end

theorem Started.shows {os : Platform} {s : System} (started : Started os s)
    (granted : displacements s.machine.calls = 0) :
    Shows os s ⟨heapStart, heapEnd s.machine.calls, ∅⟩ := by
  have counted := started.no_displacement
  obtain ⟨_, returned⟩ := started
  refine ⟨_, (init_invariant returned).2, counted.trans granted, ?_⟩
  simp [arenaOf, takens, freshBlock]

theorem empty_sound (stop : Nat) : Arena.Sound ⟨heapStart, stop, ∅⟩ := by
  constructor <;> simp

/-- The arena of the last list is what the events of the run make of the first. -/
theorem Run.arena {os : Platform} {start s : System} {actions : List Action}
    (started : Started os start) (run : Run (AdmissibleStep os) start actions s)
    (granted : displacements s.machine.calls = 0) :
    ∃ blocks, Invariant os s blocks ∧ gaps (regions s.machine.calls) = 0 ∧
      Run (ArenaStep os.pageSize) ⟨heapStart, heapEnd start.machine.calls, ∅⟩
        (actions.filterMap Action.arenaEvent) (arenaOf (heapEnd s.machine.calls) blocks) := by
  have reachable : Reachable os start := ⟨start, [], started, .nil start⟩
  obtain ⟨run', none⟩ := Run.granted run reachable.displaced granted
  have followed : ∃ A, Run (ArenaStep os.pageSize) ⟨heapStart, heapEnd start.machine.calls, ∅⟩
      (actions.filterMap Action.arenaEvent) A ∧ Shows os s A :=
    run'.erase (fun quiet shows step => shows.silent quiet step)
      (fun seen shows step => shows.step seen step) (started.shows none)
  obtain ⟨_, arenas, blocks, invariant, gapless, rfl⟩ := followed
  exact ⟨blocks, invariant, gapless, arenas⟩

/-- As long as `mmap` grants its hints, a run is a run of lowest fit over the range of the
heap: every pointer returned is where lowest fit takes its piece, and the events of the run
determine what is taken in the end. -/
theorem runs_over_arena {os : Platform} {start s : System} {actions : List Action}
    (started : Started os start) (run : Run (AdmissibleStep os) start actions s)
    (granted : displacements s.machine.calls = 0) :
    ∃ blocks, Chain s.machine.memory heapStart blocks ∧
      Run (ArenaStep os.pageSize) ⟨heapStart, heapEnd start.machine.calls, ∅⟩
        (actions.filterMap Action.arenaEvent) (arenaOf (heapEnd s.machine.calls) blocks) ∧
      (arenaOf (heapEnd s.machine.calls) blocks).Sound ∧
      ∀ A, Run (ArenaStep os.pageSize) ⟨heapStart, heapEnd start.machine.calls, ∅⟩
        (actions.filterMap Action.arenaEvent) A →
          A = arenaOf (heapEnd s.machine.calls) blocks := by
  obtain ⟨blocks, invariant, _, arenas⟩ := Run.arena started run granted
  have sound := empty_sound (heapEnd start.machine.calls)
  exact ⟨blocks, invariant.heap.chain, arenas, LowestFit.run_sound sound arenas,
    fun A arenas' => LowestFit.run_unique sound arenas' arenas⟩

/-- The third request gives the first piece back. -/
theorem runs_over_arena_of_three : ∃ (m : Machine) (actions : List Action) (s : System)
    (blocks : List Block),
    heapInit granting 8175 ⟨fun _ => 0, [], []⟩ = some (heapStart, m) ∧
    actions.filterMap Action.request = sampleRequests ∧
    Chain s.machine.memory heapStart blocks ∧
    Run (ArenaStep 4096) ⟨heapStart, heapEnd m.calls, ∅⟩ (actions.filterMap Action.arenaEvent)
      (arenaOf 67391488 blocks) := by
  obtain ⟨s, performed, granted, ends⟩ := sample_granted
  obtain ⟨m, actions, returned, run, requests⟩ := sessionIn_run (by decide) performed
  obtain ⟨blocks, chain, arenas, _⟩ := runs_over_arena (.init (by decide) returned) run granted
  rw [ends] at arenas
  exact ⟨m, actions, s, blocks, returned, requests, chain, arenas⟩

end MemoryAllocator
