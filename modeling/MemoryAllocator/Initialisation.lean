import MemoryAllocator.Soundness

/-! What `heap_init` promises by returning an address. It falls back to a region anywhere when
`HEAP_START` is occupied, but `_malloc` always searches from `HEAP_START`; and the size of the
region wraps for the largest initial sizes. -/
namespace MemoryAllocator
open Foundation

/-- After `heap_init` returned `h`: the list that `_malloc` searches starts at `h`, and what the
initial size covers is served inside the region at `h`, with no call of `mmap` and no header
read outside mapped memory. -/
structure Promise (os : Platform) (initial h : Nat) (m : Machine) : Prop where
  starts : ∃ b rest, Chain m.memory heapStart (b :: rest) ∧ b.addr = h
  serves : ∀ query, max query blockMinCapacity ≤ initial →
    ∃ pointer m', malloc os query m = some (pointer, m') ∧ pointer ≠ null ∧
      (∃ r ∈ regions m.calls, r.start = h ∧ r.start ≤ pointer ∧ pointer < r.stop) ∧
      m'.calls = m.calls ∧
      ∃ touched, m'.accesses = m.accesses ++ touched ∧ ∀ a ∈ touched, a.kind = .read →
        cells a.header contentsOffset ⊆ footprint (regions m.calls)

def initialRegion (os : Platform) (initial : Nat) : Nat :=
  (requestRegion (os.since []) heapStart (regionSize os.pageSize initial)).1

/-- `mmap` refuses the first region, or maps it at `HEAP_START` and its size does not wrap. -/
def Initialisable (os : Platform) (initial : Nat) : Prop :=
  initialRegion os initial = mapFailed ∨
    (initialRegion os initial = heapStart ∧
      roundUp os.pageSize (initial + contentsOffset) < 2 ^ 64)

section
variable {os : Platform} {initial : Nat} {memory : Memory} {m : Machine}

theorem reads_mapped {m' : Machine} {blocks blocks' : List Block} (heap' : Heap m' blocks')
    (evolves : Evolves m blocks m' blocks') : ∃ touched, m'.accesses = m.accesses ++ touched ∧
      ∀ a ∈ touched, a.kind = .read →
        cells a.header contentsOffset ⊆ footprint (regions m'.calls) := by
  obtain ⟨touched, grown, onList⟩ := evolves.accesses
  refine ⟨touched, grown, ?_⟩
  intro a member read x inside
  obtain ⟨list, _, _, within, b, among, header⟩ := onList a member (by simp [read])
  rw [← heap'.tiled]
  simp only [mem_cells, ← header] at inside
  refine within (mem_extents.mpr ⟨b, among, inside.1, ?_⟩)
  simp only [Block.stop, Block.size]
  omega

theorem promise_of_placed (fits : roundUp os.pageSize (initial + contentsOffset) < 2 ^ 64)
    (returned : heapInit os initial ⟨memory, [], []⟩ = some (heapStart, m)) :
    Promise os initial heapStart m := by
  obtain ⟨asked, invariant⟩ := init_invariant returned
  have mapped : heapStart ≠ mapFailed := by decide
  have one := requestRegion_one asked mapped
  refine ⟨⟨_, [], invariant.heap.chain, rfl⟩, ?_⟩
  intro query covered
  have large := freshBlock_serves os.pageSize_pos fits heapStart
  have good : (freshBlock heapStart (regionSize os.pageSize initial)).fits
      (max query blockMinCapacity) = true := Block.fits_iff.mpr ⟨rfl, covered.trans large⟩
  obtain ⟨pointer, m', served⟩ := invariant.malloc_returns query
  obtain ⟨_, answer, calls, evolves, heap'⟩ := invariant.heap.replied served
  simp only [ListAllocator.malloc, Fusion.search, good, if_true, List.append_nil] at answer calls
  have reads := reads_mapped heap' evolves
  rw [calls] at reads
  have size := (regionSize_bounds os.pageSize initial).1
  refine ⟨pointer, m', served, ?_, ⟨_, by rw [one]; exact List.mem_singleton_self _, rfl, ?_, ?_⟩,
    calls, reads⟩
  · simp [answer, freshBlock, Block.contents, contentsOffset, heapStart, null]
  · simp [answer, freshBlock, Block.contents]
  · simp only [regionMinSize] at size
    simp only [answer, freshBlock, Block.contents, contentsOffset, Span.stop]
    omega

theorem Promise.fits (promise : Promise os initial heapStart m)
    (returned : heapInit os initial ⟨memory, [], []⟩ = some (heapStart, m)) :
    roundUp os.pageSize (initial + contentsOffset) < 2 ^ 64 := by
  obtain ⟨_, invariant⟩ := init_invariant returned
  by_contra wraps
  have rounded := roundUp_lt os.pageSize_pos (initial + contentsOffset)
  have small : os.pageSize < 2 ^ 31 := by
    obtain ⟨k, below, same⟩ := os.pageSize_pow
    rw [same]
    exact Nat.pow_lt_pow_right (by decide) (by omega)
  have large : max initial blockMinCapacity = initial := by
    simp only [contentsOffset] at wraps rounded
    simp only [blockMinCapacity]
    omega
  -- a request for the initial size itself is served by a block that no heap has
  obtain ⟨pointer, m', served, _, _, silent, _⟩ := promise.serves initial large.le
  obtain ⟨outcome, _, grown, _, heap'⟩ := invariant.heap.replied served
  rw [silent] at grown
  obtain ⟨before, good, after, searched, reply⟩ :=
    outcome.found_of_no_events (List.append_right_eq_self.mp grown.symm)
  have enough := (served_capacity (Block.fits_iff.mp searched.decides.1).2).1
  rw [reply, carve_eq] at heap'
  have inadmissible : ¬ Admissible os.pageSize initial := by
    rwa [Admissible, large]
  have placed' : Placed os m'.calls := silent ▸ invariant.placed
  have less := heap'.capacity_lt placed' inadmissible
    (b := good.served (max initial blockMinCapacity)) (by simp)
  omega

theorem initialisable_of_promise {h : Nat}
    (returned : heapInit os initial ⟨memory, [], []⟩ = some (h, m))
    (promise : h ≠ null → Promise os initial h m) : Initialisable os initial := by
  cases asked : requestRegion (os.since []) heapStart (regionSize os.pageSize initial) with
  | mk region events =>
      have places := (heapInit_places os (m := ⟨memory, [], []⟩) rfl asked).of_returns
        returned
      have first : initialRegion os initial = region := congrArg Prod.fst asked
      obtain ⟨calls, ⟨failed, _⟩ | ⟨mapped, rfl, holds⟩⟩ := places
      · exact .inl (first.trans failed)
      · have kept := promise (requestRegion_lawful asked mapped).1
        obtain ⟨b, rest, chain, head⟩ := kept.starts
        obtain rfl : h = heapStart := head.symm.trans chain.start
        exact .inr ⟨first, kept.fits returned⟩

end

/-- `heap_init` always returns, and it keeps its promise exactly when `mmap` refuses the first
region or maps it at `HEAP_START` with a size that does not wrap. -/
theorem heapInit_promise_iff (os : Platform) (initial : Nat) (memory : Memory) :
    ∃ h m, heapInit os initial ⟨memory, [], []⟩ = some (h, m) ∧
      ((h ≠ null → Promise os initial h m) ↔ Initialisable os initial) := by
  cases asked : requestRegion (os.since []) heapStart (regionSize os.pageSize initial) with
  | mk region events =>
      have first : initialRegion os initial = region := congrArg Prod.fst asked
      obtain ⟨h, m, returned, _, answer⟩ :=
        heapInit_places os (m := ⟨memory, [], []⟩) rfl asked
      refine ⟨h, m, returned, fun promise => initialisable_of_promise returned promise, ?_⟩
      rintro (refused | ⟨placed, fits⟩) nonnull
      · rcases answer with ⟨_, rfl⟩ | ⟨mapped, _, _⟩
        · exact absurd rfl nonnull
        · exact absurd (first.symm.trans refused) mapped
      · rcases answer with ⟨_, rfl⟩ | ⟨_, rfl, _⟩
        · exact absurd rfl nonnull
        · obtain rfl : h = heapStart := first.symm.trans placed
          exact promise_of_placed fits returned

/-- A system that refuses `MAP_FIXED_NOREPLACE` and maps regions at a place of its own. -/
def displacing : Platform where
  pageSize := 4096
  mmap past call :=
    if call.flags = mapPrivateAnonymous ∧ 0x10000000 + call.length < 2 ^ 64 ∧
        ∀ r ∈ regions past, r.stop ≤ 0x10000000 ∨ 0x10000000 + call.length ≤ r.start then
      0x10000000
    else mapFailed
  padding _ _ _ := 0
  pageSize_pow := pageSize_4096
  mmap_lawful := by
    intro past call
    split
    · rename_i lawful
      exact .inr ⟨by decide, by decide, lawful.2.1, lawful.2.2⟩
    · exact .inl rfl

/-- With `HEAP_START` occupied, `heap_init` returns the place it fell back to, and the list that
`_malloc` searches does not start there. -/
theorem heapInit_displaced : ∃ m, heapInit displacing 8175 ⟨fun _ => 0, [], []⟩ =
    some (0x10000000, m) ∧ ¬ (0x10000000 ≠ null → Promise displacing 8175 0x10000000 m) := by
  have placed : (heapInit displacing 8175 ⟨fun _ => 0, [], []⟩).map Prod.fst =
      some 0x10000000 := by
    decide +kernel
  obtain ⟨⟨h, m⟩, returned, rfl⟩ := Option.map_eq_some_iff.mp placed
  refine ⟨m, returned, ?_⟩
  intro promise
  obtain ⟨⟨b, rest, chain, head⟩, _⟩ := promise (by decide)
  exact absurd (head.symm.trans chain.start) (by decide)

end MemoryAllocator
