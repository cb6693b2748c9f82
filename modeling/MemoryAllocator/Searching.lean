import MemoryAllocator.EagerHeap
import MemoryAllocator.Freeing

/-! The full effect of a search on the list it walks, and why its loops end. -/
namespace MemoryAllocator
open Foundation

/-- The function replaces every free run of a list by one free block, and keeps taken blocks. -/
structure JoinsRuns (join : List Block → List Block) : Prop where
  nil : join [] = []
  run : ∀ {blocks pre run post : List Block} {a : Block}, FreeRun blocks pre (a :: run) post →
    join blocks = join pre ++ ⟨a.addr, mergedCapacity (a :: run), true⟩ :: join post
  taken : ∀ {b : Block}, b.isFree = false → ∀ pre post,
    join (pre ++ b :: post) = join pre ++ b :: join post

theorem fuseAll_eq {a : Block} (free : a.isFree = true) (run : List Block) :
    Block.fusion.fuseAll a run = ⟨a.addr, mergedCapacity (a :: run), true⟩ := by
  have addr := fuseAll_addr a run
  have isFree := (fuseAll_isFree a run).trans free
  have capacity := fuseAll_capacity a run
  generalize Block.fusion.fuseAll a run = merged at addr isFree capacity ⊢
  cases merged
  simp only at addr isFree capacity
  rw [addr, isFree, capacity]

theorem coalesce_joins : JoinsRuns Block.fusion.coalesce := by
  constructor
  · rfl
  · intro blocks pre run post a free
    rw [free.settles, fuseAll_eq (free.all a List.mem_cons_self)]
  · exact fun taken pre post => coalesce_wall taken pre post

section
variable {os : Platform} {m : Machine} {pre post blocks : List Block} {b : Block} {query : Nat}

theorem roomy_of_low (wf : WellFormed blocks) (low : ∀ c ∈ blocks, c.stop + 24 ≤ 2 ^ 64) :
    Roomy blocks := by
  intro merged fuses b member
  have positive := (wf.fuses fuses).addr_pos member
  have nonempty := WellFormed.size_pos b
  have lastCell : b.stop - 1 ∈ extents merged := by
    refine mem_extents.mpr ⟨b, member, ?_, ?_⟩
    · simp only [Block.stop]
      omega
    · simp only [Block.stop]
      omega
  rw [extents_fuses fuses] at lastCell
  obtain ⟨c, among, _, upper⟩ := mem_extents.mp lastCell
  have bound := low c among
  simp only [Block.stop, Block.size, contentsOffset] at upper bound
  omega

theorem search_first_run {before after : List Block} {good : Block}
    (found : Block.fusion.search (Block.fits query) b post = .found before good after) :
    ∃ pre' a run, FirstRun (fun b => b.isFree = true) (Large query) (b :: post) pre' (a :: run)
        after ∧ Block.fusion.coalesce pre' = before ∧
      good = ⟨a.addr, mergedCapacity (a :: run), true⟩ := by
  have spec := Fusion.search_spec (F := Block.fusion) (Block.fits query) b post
  rw [found] at spec
  obtain ⟨pre', a, run, split, rfl, rfl, longest⟩ := Fusion.search_found found
  have first : a.isFree = true :=
    (fuseAll_isFree a run).symm.trans (Block.fits_iff.mp spec.decides.1).1
  refine ⟨pre', a, run, ?_, rfl, fuseAll_eq first run⟩
  rw [split]
  exact firstRun_of_bad (freeRun_of_longest longest first) spec.decides.1 spec.decides.2

end

/-- A search from any block of a list decides on the free runs from there on. Where none is
large it joins them all and reports the last block; else it joins those before the first large
one, serves that one, and leaves the rest alone. Nothing before its start is changed. -/
theorem tryMemallocExisting_exact {os : Platform} {m : Machine} {pre post : List Block} {b : Block}
    {query : Nat} (holds : Holds m.memory (pre ++ b :: post))
    (low : ∀ c ∈ pre ++ b :: post, c.stop + 24 ≤ 2 ^ 64) (large : blockMinCapacity ≤ query) :
    JoinsRuns Block.fusion.coalesce ∧
      Ensures (tryMemallocExisting os query b.addr) m fun r m' => m'.calls = m.calls ∧
        ((∀ pre' run post', FreeRun (b :: post) pre' run post' → ¬ Large query run) →
          Holds m'.memory (pre ++ Block.fusion.coalesce (b :: post)) ∧
            ∃ front last, Block.fusion.coalesce (b :: post) = front ++ [last] ∧
              r = ⟨.reachedEndNotFound, last.addr⟩) ∧
        ((∃ pre' run post', FreeRun (b :: post) pre' run post' ∧ Large query run) →
          ∃ pre' a run post',
            FirstRun (fun c => c.isFree = true) (Large query) (b :: post) pre' (a :: run) post' ∧
            r = ⟨.foundGoodBlock, a.addr⟩ ∧
            Holds m'.memory (pre ++ (Block.fusion.coalesce pre' ++
              ((⟨a.addr, mergedCapacity (a :: run), true⟩ : Block).carve query ++ post')))) := by
  refine ⟨coalesce_joins, ?_⟩
  refine (tryMemallocExisting_serves os holds large (roomy_of_low holds.wellFormed low)).mono ?_
  rintro r m' ⟨rfl, calls, evolves⟩
  have spec := Fusion.search_spec (F := Block.fusion) (Block.fits query) b post
  have left := evolves.holds
  refine ⟨calls, ?_⟩
  cases result : Block.fusion.search (Block.fits query) b post with
  | exhausted before last =>
      rw [result] at spec left
      have settled : Block.fusion.coalesce (b :: post) = before ++ [last] := spec.fused
      refine ⟨fun _ => ⟨settled.symm ▸ left, before, last, settled, rfl⟩, ?_⟩
      rintro ⟨pre', run, post', free, enough⟩
      exact absurd enough (exhausted_small spec free)
  | found before good after =>
      rw [result] at left
      obtain ⟨pre', a, run, first, rfl, rfl⟩ := search_first_run result
      refine ⟨fun none => ?_, fun _ => ⟨pre', a, run, after, first, rfl, left⟩⟩
      exact absurd first.large (none pre' (a :: run) after first.maximal)

/-- The first block of a fresh heap is split at a request of 100 bytes. -/
theorem tryMemallocExisting_exact_of_split : ∃ m m' r,
    heapInit granting 8175 ⟨fun _ => 0, [], []⟩ = some (heapStart, m) ∧
    tryMemallocExisting granting 100 heapStart m = some (r, m') ∧
    r.type = .foundGoodBlock ∧ m'.calls = m.calls := by
  have placed : (heapInit granting 8175 ⟨fun _ => 0, [], []⟩).map (fun r => r.1) =
      some heapStart := by
    decide +kernel
  obtain ⟨⟨start, m⟩, returned, same⟩ := Option.map_eq_some_iff.mp placed
  obtain rfl : start = heapStart := same
  have invariant := (init_invariant returned).2
  have whole : Holds m.memory
      ([] ++ freshBlock heapStart (regionSize granting.pageSize 8175) :: []) := invariant.heap.holds
  obtain ⟨_, r, m', served, calls, _, found⟩ :=
    tryMemallocExisting_exact whole (by decide) (show blockMinCapacity ≤ 100 by decide)
  have alone : FreeRun [freshBlock heapStart (regionSize granting.pageSize 8175)] []
      [freshBlock heapStart (regionSize granting.pageSize 8175)] [] :=
    ⟨rfl, List.cons_ne_nil _ _, by simp [freshBlock], List.isChain_singleton _, by simp, by simp⟩
  obtain ⟨_, _, _, _, _, rfl, _⟩ := found ⟨[], _, [], alone, by decide⟩
  exact ⟨m, m', _, returned, served, rfl, calls⟩

/-- The merges among the touches of headers that the loops make: each assigns one header. -/
def merges (touched : List Access) : Nat := touched.countP fun a => a.kind == .init

/-- A walk over the block list: it ended, touched only headers of the list of that moment, and
shortened the list by one block for each merge. -/
def Walked (m : Machine) (blocks : List Block) (m' : Machine) : Prop :=
  ∃ blocks' touched, Chain m'.memory heapStart blocks' ∧ m'.accesses = m.accesses ++ touched ∧
    (∀ a ∈ touched, ∃ l, Chain a.memory heapStart l ∧ a.header ∈ l.map Block.addr) ∧
    merges touched + blocks'.length = blocks.length

theorem OnList.chain {start : Nat} {within : List Nat} {a : Access}
    (onList : OnList start within a) :
    ∃ l, Chain a.memory start l ∧ a.header ∈ l.map Block.addr := by
  obtain ⟨l, holds, head, _, b, member, same⟩ := onList
  exact ⟨l, holds.chain head, same ▸ List.mem_map_of_mem member⟩

theorem Merges.walked {m m' : Machine} {l l' : List Block} (merged : Merges m l m' l')
    (start : headAddr l null = heapStart) : Walked m l m' := by
  obtain ⟨touched, grown, onList, counted⟩ := merged.accesses
  rw [start] at onList
  exact ⟨l', touched, merged.holds.chain ((headAddr_fuses merged.fuses null).trans start), grown,
    fun a member => (onList a member).chain, counted⟩

theorem Walked.of_released {m m' : Machine} {pre post : List Block} {b : Block}
    (heap : Heap m (pre ++ b :: post))
    (walked : Walked (m.released b.addr) (pre ++ b.release :: post) m') :
    Walked m (pre ++ b :: post) m' := by
  obtain ⟨blocks', touched, chain, grown, onList, counted⟩ := walked
  refine ⟨blocks', ⟨.write, b.addr, m.memory⟩ :: touched, chain,
    grown.trans (List.append_assoc _ _ _), ?_, ?_⟩
  · intro a member
    rcases List.mem_cons.mp member with rfl | later
    · exact ⟨_, heap.chain, by simp⟩
    · exact onList a later
  · simpa [merges] using counted

/-- On every reachable heap the search from any block and the merge loop of `_free` end, within
as many rounds as there are blocks, on headers of the list. -/
theorem loops_end {os : Platform} {s : System} (reachable : Reachable os s) :
    (∀ m block, Ensures (tryMergeWithNext os block) m fun merged m' =>
      ∃ touched, m'.accesses = m.accesses ++ touched ∧ merges touched = merged.toNat) ∧
    ∃ blocks, Chain s.machine.memory heapStart blocks ∧
      (∀ b ∈ blocks, ∀ size, Ensures (findGoodOrLast os b.addr size) s.machine fun _ m' =>
        Walked s.machine blocks m') ∧
      (∀ b ∈ blocks, ∀ size rounds, blocks.length < rounds →
        Ensures (searchLoop os size rounds b.addr b.addr) s.machine fun _ m' =>
          Walked s.machine blocks m') ∧
      (∀ a ∈ s.live, Ensures (free os a.pointer) s.machine fun _ m' =>
        Walked s.machine blocks m') ∧
      ∀ a ∈ s.live, ∀ rounds, blocks.length ≤ rounds →
        Ensures (mergeLoop os rounds (blockGetHeader a.pointer))
          (s.machine.released (blockGetHeader a.pointer)) fun _ m' =>
            Walked s.machine blocks m' := by
  obtain ⟨blocks, invariant⟩ := reachable.invariant
  have heap := invariant.heap
  refine ⟨?_, blocks, heap.chain, ?_, ?_, ?_, ?_⟩
  · intro m block
    refine (tryMergeWithNext_touches os m block).mono fun merged m' touched => ?_
    obtain ⟨new, grown, _, counted⟩ := touched.accesses
    exact ⟨new, grown, counted⟩
  · intro b member size
    obtain ⟨pre, post, rfl⟩ := List.append_of_mem member
    exact (findGoodOrLast_searches heap.holds).mono fun _ _ found => found.2.walked heap.start
  · intro b member size rounds enough
    obtain ⟨pre, post, rfl⟩ := List.append_of_mem member
    simp only [List.length_append, List.length_cons] at enough
    exact (searchLoop_searches heap.holds (by omega)).mono
      fun _ _ found => found.2.walked heap.start
  · intro a live
    obtain ⟨pre, b, post, rfl, _, serves⟩ := invariant.block_of_live live
    rw [← serves.pointer]
    refine (free_absorbs os heap.holds).mono fun _ m' merged => .of_released heap (merged.walked ?_)
    rw [headAddr_release, heap.start]
  · intro a live rounds enough
    obtain ⟨pre, b, post, rfl, _, serves⟩ := invariant.block_of_live live
    simp only [List.length_append, List.length_cons] at enough
    rw [← serves.pointer, blockGetHeader_contents heap.holds.wellFormed (b := b) (by simp)]
    have marked : Holds (s.machine.released b.addr).memory (pre ++ b.release :: post) :=
      heap.holds.storeIsFree
    have enough' : post.length < rounds := by omega
    refine (mergeLoop_absorbs (b := b.release) marked enough').mono
      fun _ m' merged => .of_released heap (merged.walked ?_)
    rw [headAddr_release, heap.start]

theorem loops_end_of_three : ∃ s blocks,
    session granting 8175 [.malloc 100, .malloc 200, .malloc 300, .free 67371142] = some s ∧
    Chain s.machine.memory heapStart blocks ∧
    Ensures (free granting 67371025) s.machine fun _ m' => Walked s.machine blocks m' := by
  have started : (session granting 8175
      [.malloc 100, .malloc 200, .malloc 300, .free 67371142]).map (·.live) =
        some [⟨67371359, 300⟩, ⟨67371025, 100⟩] := by
    decide +kernel
  obtain ⟨s, returned, live⟩ := Option.map_eq_some_iff.mp started
  have reachable := session_reachable (by decide) (by decide) returned
  obtain ⟨_, blocks, chain, _, _, freed, _⟩ := loops_end reachable
  exact ⟨s, blocks, returned, chain, freed ⟨67371025, 100⟩ (by simp [live])⟩

end MemoryAllocator
