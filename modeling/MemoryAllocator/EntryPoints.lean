import MemoryAllocator.Growing

/-! The entry points: `malloc` and `free` over memory answer, call `mmap` and change the list
just as the allocator over lists does, and `heapInit` leaves a list of one block. -/
namespace MemoryAllocator
open Foundation

/-- The heap between two calls: memory holds a list that begins at `heapStart`, and its blocks
cover the mapped regions, one after the other. -/
structure Heap (m : Machine) (blocks : List Block) : Prop where
  holds : Holds m.memory blocks
  start : headAddr blocks null = heapStart
  tiled : extents blocks = footprint (regions m.calls)

namespace Heap

variable {m : Machine} {blocks : List Block}

theorem nonempty (heap : Heap m blocks) : blocks ≠ [] := by
  rintro rfl
  exact absurd heap.start (by decide)

theorem chain (heap : Heap m blocks) : Chain m.memory heapStart blocks :=
  heap.holds.chain heap.start

theorem unique {blocks' : List Block} (heap : Heap m blocks)
    (chain' : Chain m.memory heapStart blocks') : blocks' = blocks :=
  chain'.unique heap.chain

theorem head (heap : Heap m blocks) :
    ∃ b rest, blocks = b :: rest ∧ b.addr = heapStart ∧ Heap m ([] ++ b :: rest) := by
  obtain ⟨b, rest, rfl⟩ := List.exists_cons_of_ne_nil heap.nonempty
  exact ⟨b, rest, rfl, heap.start, heap⟩

end Heap

theorem sizeMax_eq (x y : Nat) : sizeMax x y = max x y := by
  unfold sizeMax
  split <;> omega

theorem blockMinCapacity_le (query : Nat) : blockMinCapacity ≤ sizeMax query blockMinCapacity := by
  rw [sizeMax_eq]
  exact le_max_right _ _

/-- The head of the list stands so high that no block is almost as long as the address space. -/
theorem roomy_of_start {blocks : List Block} (wf : WellFormed blocks)
    (start : headAddr blocks null = heapStart) : Roomy blocks := by
  intro merged fuses b member
  have wf' := wf.fuses fuses
  have stop := wf'.stop_lt member
  have begin' := (headAddr_fuses fuses null).trans start
  cases merged with
  | nil => cases member
  | cons a rest =>
      simp only [headAddr_cons] at begin'
      simp only [Block.stop, Block.size, contentsOffset] at stop
      rcases List.mem_cons.mp member with rfl | later
      · simp only [heapStart] at begin'
        omega
      · have whole : WellFormed ([] ++ a :: rest) := wf'
        have apart := whole.apart b later
        simp only [Block.stop, Block.size, contentsOffset, begin', heapStart] at apart
        omega

theorem Heap.roomy {m : Machine} {blocks : List Block} (heap : Heap m blocks) : Roomy blocks :=
  roomy_of_start heap.holds.wellFormed heap.start

section
variable {os : Platform} {m : Machine} {pre post : List Block} {b : Block}

theorem contents_fit {blocks : List Block} (wf : WellFormed blocks) (member : b ∈ blocks) :
    b.addr + contentsOffset < 2 ^ 64 := by
  have stop := wf.stop_lt member
  simp only [Block.stop, Block.size] at stop
  omega

theorem contents_of_block {blocks : List Block} (wf : WellFormed blocks) (member : b ∈ blocks) :
    contents b.addr = b.contents := Nat.mod_eq_of_lt (contents_fit wf member)

theorem tryMemallocExisting_null (query : Nat) {Q : BlockSearchResult → Machine → Prop} :
    Ensures (tryMemallocExisting os query null) m Q ↔ Q ⟨.corrupted, null⟩ m :=
  ensures_of_returns rfl

/-- The second search of a request begins at the block that growth made available. -/
theorem tryMemallocExisting_last {query : Nat} (holds : Holds m.memory (pre ++ [b]))
    (free : b.isFree = true) (large : blockMinCapacity ≤ query) (roomy : Roomy (pre ++ [b])) :
    Ensures (tryMemallocExisting os query b.addr) m fun r m' =>
      r.block = b.addr ∧ m'.calls = m.calls ∧
        Evolves m (pre ++ [b]) m' (pre ++ serveLast query b) := by
  refine (tryMemallocExisting_serves os holds large roomy).mono ?_
  rintro r m' ⟨rfl, calls, evolves⟩
  by_cases fits : query ≤ b.capacity
  · have good : b.fits query = true := Block.fits_iff.mpr ⟨free, fits⟩
    simp only [Fusion.search, good, if_true, carved, List.nil_append, List.append_nil] at evolves
    simp only [Fusion.search, good, if_true, report, serveLast, if_pos fits, true_and]
    exact ⟨calls, evolves⟩
  · have bad : b.fits query = false := by simp [Block.fits, fits]
    simp only [Fusion.search, bad, Bool.false_eq_true, if_false, carved, List.nil_append] at evolves
    simp only [Fusion.search, bad, Bool.false_eq_true, if_false, report, serveLast, if_neg fits,
      true_and]
    exact ⟨calls, evolves⟩

/-- `malloc` answers, calls `mmap` and leaves the list as the allocator over lists does. -/
theorem malloc_refines (os : Platform) (query : Nat) {blocks : List Block} (heap : Heap m blocks) :
    Ensures (malloc os query) m fun p m' =>
      p = (ListAllocator.malloc os.pageSize (os.since m.calls) query blocks).pointer ∧
      m'.calls = m.calls ++
        (ListAllocator.malloc os.pageSize (os.since m.calls) query blocks).events ∧
      Evolves m blocks m'
        (ListAllocator.malloc os.pageSize (os.since m.calls) query blocks).blocks := by
  obtain ⟨b, rest, rfl, start, whole⟩ := heap.head
  obtain ⟨holds, _, tiled⟩ := heap
  have large : blockMinCapacity ≤ max query blockMinCapacity := le_max_right _ _
  have spec := Fusion.search_spec (F := Block.fusion)
    (Block.fits (max query blockMinCapacity)) b rest
  have first := tryMemallocExisting_serves os whole.holds large whole.roomy
  rw [start] at first
  simp only [malloc, memalloc, sizeMax_eq, max_assoc, max_self, ensures_bind]
  refine first.mono ?_
  rintro r m₁ ⟨rfl, calls, evolves⟩
  cases result : Block.fusion.search (Block.fits (max query blockMinCapacity)) b rest with
  | found before good after =>
      rw [result] at spec evolves
      have wf := holds.wellFormed.fuses spec.fuses
      have inside : good ∈ (SearchResult.found before good after).list := by
        simp [SearchResult.list]
      have nonnull := wf.nonnull inside
      simp only [ListAllocator.malloc, result, report, ensures_pure, if_neg nonnull,
        contents_of_block wf inside, List.append_nil]
      exact ⟨trivial, calls, evolves⟩
  | exhausted before last =>
      rw [result] at spec evolves
      have same : extents (before ++ [last]) = extents (b :: rest) := extents_fuses spec.fuses
      simp only [ListAllocator.malloc, result, report, ensures_bind, serveGrown]
      cases asked : requestRegion (os.since m.calls) last.stop
          (regionSize os.pageSize (max query blockMinCapacity)) with
      | mk region events =>
          rw [← calls] at asked
          have grows := growHeap_grows evolves.holds (by rw [same, tiled, calls]) asked
          refine grows.mono ?_
          rintro g m₂ ⟨calls', ⟨failed, rfl, evolves'⟩ | ⟨mapped, rfl, evolves'⟩⟩
          · rw [tryMemallocExisting_null]
            simp only [failed, ensures_pure, if_true]
            exact ⟨trivial, calls'.trans (by rw [calls]), evolves.trans evolves'⟩
          · have free : (freshBlock region (regionSize os.pageSize
                (max query blockMinCapacity))).isFree = true := rfl
            have roomy := roomy_of_start evolves'.holds.wellFormed
              (evolves'.head.trans (evolves.head.trans start))
            rw [grownBy] at evolves' roomy
            generalize grew : growth before last _ = grown at evolves' roomy ⊢
            obtain ⟨front, block⟩ := grown
            have blockFree := (growth_takens free grew).2
            have wf := evolves'.holds.wellFormed
            have nonnull := wf.nonnull (b := block) (by simp)
            refine (tryMemallocExisting_last evolves'.holds blockFree large roomy).mono ?_
            rintro r m' ⟨found, calls'', evolves''⟩
            simp only [found, ensures_pure, if_neg nonnull, mapped, if_false,
              contents_of_block wf (b := block) (by simp)]
            exact ⟨trivial, calls''.trans (calls'.trans (by rw [calls])),
              evolves.trans (evolves'.trans evolves'')⟩

theorem Heap.malloc {m' : Machine} {blocks : List Block} {query : Nat} {r : Reply}
    {answer : Answers} (heap : Heap m blocks)
    (outcome : Outcome os.pageSize answer query blocks r)
    (calls : m'.calls = m.calls ++ r.events) (evolves : Evolves m blocks m' r.blocks) :
    Heap m' r.blocks := by
  refine ⟨evolves.holds, evolves.head.trans heap.start, ?_⟩
  rw [outcome.extents, calls, regions_append, footprint_append, heap.tiled]

/-- What a call of `malloc` has done to a heap, in terms of the reply over lists. -/
structure Replied (os : Platform) (query : Nat) (m : Machine) (blocks : List Block)
    (pointer : Nat) (m' : Machine) (r : Reply) : Prop where
  outcome : Outcome os.pageSize (os.since m.calls) (max query blockMinCapacity) blocks r
  pointer : pointer = r.pointer
  calls : m'.calls = m.calls ++ r.events
  evolves : Evolves m blocks m' r.blocks
  heap : Heap m' r.blocks

theorem Heap.replied {blocks : List Block} {query pointer : Nat} {m' : Machine}
    (heap : Heap m blocks) (returned : MemoryAllocator.malloc os query m = some (pointer, m')) :
    Replied os query m blocks pointer m'
      (ListAllocator.malloc os.pageSize (os.since m.calls) query blocks) := by
  have outcome := malloc_outcome os.pageSize (os.since m.calls) query heap.nonempty
  obtain ⟨same, calls, evolves⟩ := (malloc_refines os query heap).of_returns returned
  exact ⟨outcome, same, calls, evolves, heap.malloc outcome calls evolves⟩

/-- The machine once the mark of a block has been set and nothing merged yet. -/
def Machine.released (m : Machine) (block : Nat) : Machine :=
  { m.touched .write block with memory := writeBytes m.memory (block + 16) [flagByte true] }

theorem blockGetHeader_contents {blocks : List Block} (wf : WellFormed blocks)
    (member : b ∈ blocks) : blockGetHeader b.contents = b.addr := by
  have fits := contents_fit wf member
  simp only [blockGetHeader, wrapSub, Block.contents, contentsOffset]
  omega

theorem free_at (wf : WellFormed (pre ++ b :: post)) :
    ListAllocator.free b.contents (pre ++ b :: post) =
      pre ++ (Block.fusion.absorb b.release post).1 :: (Block.fusion.absorb b.release post).2 := by
  have different : ∀ c ∈ pre, c.contents ≠ b.contents := by
    intro c member same
    have apart := wf.apart c (List.mem_append_left post member)
    simp only [Block.contents, Block.stop, Block.size, contentsOffset] at same apart
    omega
  clear wf
  induction pre with
  | nil => exact if_pos rfl
  | cons c pre ih =>
      have elsewhere := different c List.mem_cons_self
      have rest := ih fun d member => different d (List.mem_cons_of_mem c member)
      simp only [List.cons_append, ListAllocator.free, if_neg elsewhere, rest]

theorem extents_release (pre post : List Block) (b : Block) :
    extents (pre ++ b.release :: post) = extents (pre ++ b :: post) := by
  simp [Block.span, Block.size, Block.release]

theorem headAddr_release (pre post : List Block) (b : Block) (tail : Nat) :
    headAddr (pre ++ b.release :: post) tail = headAddr (pre ++ b :: post) tail :=
  headAddr_replace (b := b) (c := b.release) rfl pre post post tail

theorem ensures_free (wf : WellFormed (pre ++ b :: post)) {Q : Unit → Machine → Prop} :
    Ensures (free os b.contents) m Q ↔
      Ensures (mergeLoop os loopBound b.addr) (m.released b.addr) Q := by
  simp only [free, if_neg b.contents_ne_null, blockGetHeader_contents wf (b := b) (by simp),
    ensures_bind, ensures_storeIsFree]
  rfl

/-- `free` marks the block and absorbs its successors; it does nothing else to the list. -/
theorem free_absorbs (os : Platform) (holds : Holds m.memory (pre ++ b :: post)) :
    Ensures (free os b.contents) m fun _ m' =>
      Merges (m.released b.addr) (pre ++ b.release :: post) m'
        (ListAllocator.free b.contents (pre ++ b :: post)) := by
  have marked : Holds (m.released b.addr).memory (pre ++ b.release :: post) := holds.storeIsFree
  rw [ensures_free holds.wellFormed, free_at holds.wellFormed]
  exact mergeLoop_absorbs (b := b.release) marked (Nat.lt_of_succ_lt holds.rest_lt)

theorem Heap.free {m' : Machine} (heap : Heap m (pre ++ b :: post))
    (merges : Merges (m.released b.addr) (pre ++ b.release :: post) m'
      (ListAllocator.free b.contents (pre ++ b :: post))) :
    Heap m' (ListAllocator.free b.contents (pre ++ b :: post)) := by
  refine ⟨merges.holds, ?_, ?_⟩
  · rw [headAddr_fuses merges.fuses, headAddr_release, heap.start]
  · rw [extents_fuses merges.fuses, extents_release, heap.tiled, merges.calls]
    rfl

theorem heapInit_places (os : Platform) {initial region : Nat} {events : List MmapEvent}
    (fresh : m.calls = [])
    (asked : requestRegion (os.since []) heapStart (regionSize os.pageSize initial) =
      (region, events)) :
    Ensures (heapInit os initial) m fun h m' => m'.calls = events ∧
      ((region = mapFailed ∧ h = null) ∨
        (region ≠ mapFailed ∧ h = region ∧
          Holds m'.memory [freshBlock region (regionSize os.pageSize initial)])) := by
  rw [← fresh] at asked
  apply Ensures.bind (allocRegion_requests asked)
  rintro r m' ⟨calls, ⟨failed, rfl, _, _⟩ | ⟨mapped, rfl, obtained⟩⟩
  · rw [ensures_pure, calls, fresh]
    exact ⟨rfl, .inl ⟨failed, rfl⟩⟩
  · have nonnull := (requestRegion_lawful asked mapped).1
    have valid : (region == null) = false := by simpa using nonnull
    have alone := append_region (⟨.nil _, by simp [MinCapacity]⟩ : WellFormed [])
      (by rw [fresh]; rfl) asked mapped
    rw [ensures_pure, calls, fresh]
    simp only [regionIsInvalid, valid, Bool.false_eq_true, if_false]
    exact ⟨rfl, .inr ⟨mapped, trivial, alone, obtained.placed, trivial⟩⟩

theorem heap_of_init {size : Nat} {m' : Machine}
    (holds : Holds m'.memory [freshBlock heapStart size])
    (sized : (freshBlock heapStart size).size = size)
    (mapped : regions m'.calls = [⟨heapStart, size⟩]) :
    Heap m' [freshBlock heapStart size] := by
  refine ⟨holds, rfl, ?_⟩
  rw [mapped, extents_cons, extents_nil, List.append_nil, Block.span, sized, footprint_cons,
    footprint_nil, List.append_nil]
  rfl

end
end MemoryAllocator
