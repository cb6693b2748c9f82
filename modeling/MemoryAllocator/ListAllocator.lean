import MemoryAllocator.BlockList

/-! The allocator over block lists. `malloc` and `free` here are what the code does to the list
it keeps in memory; they are functions of the list, of the request, and of how `mmap` answers
from now on. -/
namespace MemoryAllocator
open Foundation

/-- How `mmap` answers from some moment on, given the calls made since. -/
abbrev Answers := List MmapEvent → MmapCall → Nat

structure Reply where
  pointer : Nat
  blocks : List Block
  events : List MmapEvent

/-- The two calls of `alloc_region`: the second is made only when the first fails. -/
def requestRegion (answer : Answers) (hint size : Nat) : Nat × List MmapEvent :=
  let first := mapPagesCall hint size mapFixedNoreplace
  let one : MmapEvent := ⟨first, answer [] first⟩
  if one.answer = mapFailed then
    let second := mapPagesCall hint size 0
    let two : MmapEvent := ⟨second, answer [one] second⟩
    (two.answer, [one, two])
  else
    (one.answer, [one])

def regionSize (pageSize query : Nat) : Nat :=
  regionActualSize pageSize (sizeFromCapacity ⟨query⟩).bytes

/-- The single free block that covers a new region. -/
def freshBlock (region size : Nat) : Block := ⟨region, size - contentsOffset, true⟩

/-- What precedes the block a new region makes available, and that block. -/
def growth (before : List Block) (last fresh : Block) : List Block × Block :=
  if last.fusible fresh then (before, last.fuse fresh) else (before ++ [last], fresh)

/-- Allocation from the last block of the list, if it is large enough. -/
def serveLast (query : Nat) (block : Block) : List Block :=
  if query ≤ block.capacity then block.carve query else [block]

def serveGrown (pageSize : Nat) (answer : Answers) (query : Nat) (before : List Block)
    (last : Block) : Reply :=
  let size := regionSize pageSize query
  let (region, events) := requestRegion answer last.stop size
  if region = mapFailed then
    ⟨null, before ++ [last], events⟩
  else
    let (front, block) := growth before last (freshBlock region size)
    ⟨block.contents, front ++ serveLast query block, events⟩

namespace ListAllocator

def malloc (pageSize : Nat) (answer : Answers) (query : Nat) : List Block → Reply
  | [] => ⟨null, [], []⟩
  | b :: rest =>
      let query := max query blockMinCapacity
      match Block.fusion.search (Block.fits query) b rest with
      | .found before good after => ⟨good.contents, before ++ (good.carve query ++ after), []⟩
      | .exhausted before last => serveGrown pageSize answer query before last

def free (pointer : Nat) : List Block → List Block
  | [] => []
  | b :: rest =>
      if b.contents = pointer then
        (Block.fusion.absorb b.release rest).1 :: (Block.fusion.absorb b.release rest).2
      else
        b :: free pointer rest

end ListAllocator

abbrev Searched (query : Nat) (blocks : List Block) (r : SearchResult Block) : Prop :=
  Fusion.SearchSpec (F := Block.fusion) (Block.fits query) blocks r

/-- Every way a request for `query` bytes can be answered. -/
inductive Outcome (pageSize : Nat) (answer : Answers) (query : Nat) (blocks : List Block) :
    Reply → Prop
  | found {before after : List Block} {good : Block} :
      Searched query blocks (.found before good after) →
      Outcome pageSize answer query blocks
        ⟨good.contents, before ++ (good.carve query ++ after), []⟩
  | refused {before : List Block} {last : Block} {events : List MmapEvent} :
      Searched query blocks (.exhausted before last) →
      requestRegion answer last.stop (regionSize pageSize query) = (mapFailed, events) →
      Outcome pageSize answer query blocks ⟨null, before ++ [last], events⟩
  | grown {before front : List Block} {last block : Block} {region : Nat}
      {events : List MmapEvent} :
      Searched query blocks (.exhausted before last) →
      requestRegion answer last.stop (regionSize pageSize query) = (region, events) →
      region ≠ mapFailed →
      growth before last (freshBlock region (regionSize pageSize query)) = (front, block) →
      Outcome pageSize answer query blocks
        ⟨block.contents, front ++ serveLast query block, events⟩

theorem malloc_outcome (pageSize : Nat) (answer : Answers) (query : Nat) {blocks : List Block}
    (nonempty : blocks ≠ []) :
    Outcome pageSize answer (max query blockMinCapacity) blocks
      (ListAllocator.malloc pageSize answer query blocks) := by
  cases blocks with
  | nil => exact absurd rfl nonempty
  | cons b rest =>
      have spec := Fusion.search_spec (F := Block.fusion)
        (Block.fits (max query blockMinCapacity)) b rest
      unfold ListAllocator.malloc
      cases result : Block.fusion.search (Block.fits (max query blockMinCapacity)) b rest with
      | found before good after =>
          rw [result] at spec
          simp only [result]
          exact .found spec
      | exhausted before last =>
          rw [result] at spec
          simp only [result, serveGrown]
          cases asked : requestRegion answer last.stop
              (regionSize pageSize (max query blockMinCapacity)) with
          | mk region events =>
              simp only
              split
              · rename_i failed
                subst failed
                exact .refused spec asked
              · rename_i mapped
                exact .grown spec asked mapped rfl

theorem requestRegion_regions {answer : Answers} {hint size region : Nat}
    {events : List MmapEvent} (asked : requestRegion answer hint size = (region, events)) :
    regions events = if region = mapFailed then [] else [⟨region, size⟩] := by
  unfold requestRegion at asked
  simp only at asked
  split at asked
  · rename_i failed
    obtain ⟨rfl, rfl⟩ := Prod.mk.inj asked
    simp only [regions_cons, regions_nil, if_pos failed]
    rfl
  · rename_i mapped
    obtain ⟨rfl, rfl⟩ := Prod.mk.inj asked
    simp only [regions_cons, regions_nil]
    rfl

theorem requestRegion_none {answer : Answers} {hint size region : Nat} {events : List MmapEvent}
    (asked : requestRegion answer hint size = (region, events)) (failed : region = mapFailed) :
    regions events = [] :=
  (requestRegion_regions asked).trans (if_pos failed)

theorem requestRegion_one {answer : Answers} {hint size region : Nat} {events : List MmapEvent}
    (asked : requestRegion answer hint size = (region, events)) (mapped : region ≠ mapFailed) :
    regions events = [⟨region, size⟩] :=
  (requestRegion_regions asked).trans (if_neg mapped)

theorem requestRegion_refused {answer : Answers} {hint size : Nat} {events : List MmapEvent}
    (asked : requestRegion answer hint size = (mapFailed, events)) :
    events = [⟨mapPagesCall hint size mapFixedNoreplace, mapFailed⟩,
      ⟨mapPagesCall hint size 0, mapFailed⟩] := by
  unfold requestRegion at asked
  simp only at asked
  split at asked
  · rename_i first
    obtain ⟨second, rfl⟩ := Prod.mk.inj asked
    rw [second, first]
  · rename_i mapped
    exact absurd (Prod.mk.inj asked).1 mapped

theorem requestRegion_events {answer : Answers} {hint size region : Nat} {events : List MmapEvent}
    (asked : requestRegion answer hint size = (region, events)) : events ≠ [] := by
  unfold requestRegion at asked
  simp only at asked
  split at asked
  · obtain ⟨_, rfl⟩ := Prod.mk.inj asked
    exact List.cons_ne_nil _ _
  · obtain ⟨_, rfl⟩ := Prod.mk.inj asked
    exact List.cons_ne_nil _ _

theorem Outcome.found_of_no_events {pageSize query : Nat} {answer : Answers} {blocks : List Block}
    {r : Reply} (outcome : Outcome pageSize answer query blocks r) (silent : r.events = []) :
    ∃ before good after, Searched query blocks (.found before good after) ∧
      r = ⟨good.contents, before ++ (good.carve query ++ after), []⟩ := by
  cases outcome with
  | found searched => exact ⟨_, _, _, searched, rfl⟩
  | refused _ asked => exact absurd silent (requestRegion_events asked)
  | grown _ asked _ _ => exact absurd silent (requestRegion_events asked)

theorem regionActualSize_ge (pageSize query : Nat) :
    regionMinSize ≤ regionActualSize pageSize query := by
  unfold regionActualSize sizeMax
  split <;> omega

theorem freshBlock_size (region pageSize query : Nat) :
    (freshBlock region (regionSize pageSize query)).size = regionSize pageSize query := by
  have large := regionActualSize_ge pageSize (sizeFromCapacity ⟨query⟩).bytes
  simp only [freshBlock, Block.size, regionSize]
  simp only [regionMinSize] at large
  simp only [contentsOffset] at large ⊢
  omega

theorem freshBlock_capacity_ge (region pageSize query : Nat) :
    blockMinCapacity ≤ (freshBlock region (regionSize pageSize query)).capacity := by
  have large := regionActualSize_ge pageSize (sizeFromCapacity ⟨query⟩).bytes
  simp only [freshBlock, regionSize, contentsOffset, blockMinCapacity]
  simp only [regionMinSize] at large
  omega

theorem growth_extents {before front : List Block} {last fresh block : Block}
    (grown : growth before last fresh = (front, block)) :
    extents (front ++ [block]) = extents (before ++ [last]) ++ fresh.span.cells := by
  unfold growth at grown
  split at grown
  · rename_i fusible
    obtain ⟨rfl, rfl⟩ := Prod.mk.inj grown
    have joined := extents_fuse fusible []
    simp only [extents_append, joined]
    simp
  · obtain ⟨rfl, rfl⟩ := Prod.mk.inj grown
    simp

theorem growth_takens {before front : List Block} {last fresh block : Block}
    (free : fresh.isFree = true) (grown : growth before last fresh = (front, block)) :
    takens front = takens (before ++ [last]) ∧ block.isFree = true := by
  unfold growth at grown
  split at grown
  · rename_i fusible
    obtain ⟨lastFree, _, _⟩ := Block.fusible_iff.mp fusible
    obtain ⟨rfl, rfl⟩ := Prod.mk.inj grown
    simp [takens, lastFree]
  · obtain ⟨rfl, rfl⟩ := Prod.mk.inj grown
    exact ⟨rfl, free⟩

theorem serveLast_extents (query : Nat) (front : List Block) (block : Block) :
    extents (front ++ serveLast query block) = extents (front ++ [block]) := by
  unfold serveLast
  split
  · have carved := extents_carve query block []
    rw [List.append_nil] at carved
    simp only [extents_append, carved]
  · rfl

theorem Outcome.extents {pageSize query : Nat} {answer : Answers} {blocks : List Block} {r : Reply}
    (outcome : Outcome pageSize answer query blocks r) :
    MemoryAllocator.extents r.blocks =
      MemoryAllocator.extents blocks ++ footprint (regions r.events) := by
  cases outcome with
  | @found before after good searched =>
      have same := extents_fuses searched.fuses
      simp only [SearchResult.list] at same
      simp only [extents_append before, extents_carve, ← same, regions_nil, footprint_nil,
        List.append_nil]
  | refused searched asked =>
      have same := extents_fuses searched.fuses
      rw [requestRegion_none asked rfl, footprint_nil, List.append_nil]
      exact same
  | @grown before front last block region events searched asked mapped grew =>
      have same := extents_fuses searched.fuses
      have one := requestRegion_one asked mapped
      have size := freshBlock_size region pageSize query
      simp only [SearchResult.list] at same
      rw [one, serveLast_extents, growth_extents grew, same, Block.span, size, footprint_cons,
        footprint_nil, List.append_nil]
      rfl

end MemoryAllocator
