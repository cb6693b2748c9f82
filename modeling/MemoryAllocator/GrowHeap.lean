import MemoryAllocator.Exactness
import MemoryAllocator.Sizing

/-! The full effect of growth, and why its hint is page-aligned: the last block ends where a
region ends, and regions are made of whole pages. -/
namespace MemoryAllocator
open Foundation

/-- Every mapped region consists of whole pages. -/
def Paged (os : Platform) (calls : List MmapEvent) : Prop :=
  ∀ r ∈ regions calls, os.pageSize ∣ r.start ∧ os.pageSize ∣ r.length

/-- The systems that runs with admissible requests reach from a heap of a given initial size. -/
def ReachableFrom (os : Platform) (initial : Nat) (s : System) : Prop :=
  ∃ memory m actions, heapInit os initial ⟨memory, [], []⟩ = some (heapStart, m) ∧
    Run (AdmissibleStep os) ⟨m, []⟩ actions s

section
variable {os : Platform} {calls : List MmapEvent} {query : Nat}

theorem regionSize_paged (fits : roundUp os.pageSize (query + contentsOffset) < 2 ^ 64) :
    os.pageSize ∣ regionSize os.pageSize query := by
  obtain ⟨k, _, power⟩ := os.pageSize_pow
  exact (regionSize_isLeast ⟨k, power⟩ fits).1.1

theorem Paged.request (paged : Paged os calls) {events : List MmapEvent} {hint region : Nat}
    (fits : roundUp os.pageSize (query + contentsOffset) < 2 ^ 64)
    (asked : requestRegion (os.since calls) hint (regionSize os.pageSize query) =
      (region, events)) : Paged os (calls ++ events) := by
  intro r member
  rw [regions_append, requestRegion_regions asked] at member
  rcases List.mem_append.mp member with old | new
  · exact paged r old
  · split at new
    · cases new
    · rename_i mapped
      obtain rfl := List.mem_singleton.mp new
      exact ⟨(requestRegion_lawful asked mapped).2.1, regionSize_paged fits⟩

theorem Paged.reply (paged : Paged os calls) {blocks : List Block} {r : Reply}
    (fits : roundUp os.pageSize (query + contentsOffset) < 2 ^ 64)
    (outcome : Outcome os.pageSize (os.since calls) query blocks r) :
    Paged os (calls ++ r.events) := by
  cases outcome with
  | found => simpa using paged
  | refused _ asked => exact paged.request fits asked
  | grown _ asked _ _ => exact paged.request fits asked

theorem Paged.step {s s' : System} {blocks : List Block} {action : Action}
    (paged : Paged os s.machine.calls) (invariant : Invariant os s blocks)
    (step : AdmissibleStep os s action s') : Paged os s'.machine.calls := by
  obtain ⟨admissible, step⟩ := step
  cases step with
  | malloc _ returned =>
      obtain ⟨outcome, _, grown, _, _⟩ := invariant.heap.replied returned
      rw [grown]
      exact paged.reply admissible outcome
  | free live returned =>
      rw [(invariant.free_step live returned).1]
      exact paged
  | write => exact paged

theorem Paged.heapEnd (paged : Paged os calls) : os.pageSize ∣ heapEnd calls := by
  unfold MemoryAllocator.heapEnd
  cases last : (regions calls).getLast? with
  | none => exact Nat.dvd_zero _
  | some r =>
      obtain ⟨starts, whole⟩ := paged r (List.mem_of_getLast? last)
      exact Nat.dvd_add starts whole

end

theorem ReachableFrom.paged {os : Platform} {initial : Nat} {s : System}
    (fits : roundUp os.pageSize (initial + contentsOffset) < 2 ^ 64)
    (reachable : ReachableFrom os initial s) :
    ∃ blocks, Invariant os s blocks ∧ Paged os s.machine.calls := by
  obtain ⟨memory, m, actions, returned, run⟩ := reachable
  obtain ⟨asked, invariant⟩ := init_invariant returned
  have none : Paged os [] := by simp [Paged]
  have first : Paged os m.calls := none.request fits asked
  refine run.invariant (I := fun s => ∃ blocks, Invariant os s blocks ∧ Paged os s.machine.calls)
    ?_ ⟨_, invariant, first⟩
  rintro s action s' ⟨blocks, invariant, paged⟩ step
  obtain ⟨blocks', invariant'⟩ := invariant.step step.safe
  exact ⟨blocks', invariant', paged.step invariant step⟩

section
variable {os : Platform} {m m' : Machine} {blocks before : List Block} {last : Block}
  {query : Nat}

theorem Heap.search_fails (heap : Heap m blocks) (large : blockMinCapacity ≤ query) {addr : Nat}
    (failed : tryMemallocExisting os query heapStart m =
      some (⟨.reachedEndNotFound, addr⟩, m')) :
    ∃ before last, Searched query blocks (.exhausted before last) ∧ addr = last.addr ∧
      m'.calls = m.calls ∧ Heap m' (before ++ [last]) := by
  obtain ⟨b, rest, rfl, start, whole⟩ := heap.head
  have served := tryMemallocExisting_serves os whole.holds large whole.roomy
  have spec := Fusion.search_spec (F := Block.fusion) (Block.fits query) b rest
  rw [start] at served
  obtain ⟨reported, calls, evolves⟩ := served.of_returns failed
  cases result : Block.fusion.search (Block.fits query) b rest with
  | found before good after =>
      rw [result] at reported
      cases reported
  | exhausted before last =>
      rw [result] at spec reported evolves
      cases reported
      refine ⟨before, last, spec, rfl, calls, evolves.holds, evolves.head.trans start, ?_⟩
      rw [calls, ← heap.tiled]
      exact extents_fuses spec.fuses

theorem growth_extents_eq {m' : Machine} {front : List Block} {block : Block} {region : Nat}
    {events : List MmapEvent} (tiled : extents (before ++ [last]) = footprint (regions m.calls))
    (asked : requestRegion (os.since m.calls) last.stop (regionSize os.pageSize query) =
      (region, events)) (mapped : region ≠ mapFailed) (calls : m'.calls = m.calls ++ events)
    (grew : growth before last (freshBlock region (regionSize os.pageSize query)) =
      (front, block)) :
    extents (front ++ [block]) = footprint (regions m'.calls) := by
  have one := requestRegion_one asked mapped
  rw [growth_extents grew, tiled, calls, regions_append, one, footprint_append, footprint_cons,
    footprint_nil, List.append_nil, Block.span, freshBlock_size]
  rfl

theorem Heap.grows (heap : Heap m (before ++ [last])) {region : Nat} {events : List MmapEvent}
    (asked : requestRegion (os.since m.calls) last.stop (regionSize os.pageSize query) =
      (region, events)) :
    Ensures (growHeap os last.addr query) m fun g m' => m'.calls = m.calls ++ events ∧
      ((region = mapFailed ∧ g = null ∧ Heap m' (before ++ [last])) ∨
        (region ≠ mapFailed ∧ ∃ front block,
          growth before last (freshBlock region (regionSize os.pageSize query)) =
            (front, block) ∧ g = block.addr ∧ Heap m' (front ++ [block]))) := by
  refine (growHeap_grows heap.holds heap.tiled asked).mono ?_
  rintro g m' ⟨calls, ⟨failed, none, evolves⟩ | ⟨mapped, some, evolves⟩⟩
  · refine ⟨calls, .inl ⟨failed, none, evolves.holds, evolves.head.trans heap.start, ?_⟩⟩
    have same := requestRegion_none asked failed
    rw [heap.tiled, calls, regions_append, same, List.append_nil]
  · refine ⟨calls, .inr ⟨mapped, _, _, rfl, some, evolves.holds, evolves.head.trans heap.start, ?_⟩⟩
    exact growth_extents_eq heap.tiled asked mapped calls rfl

end

/-- What growth does behind the last block of a list. -/
structure Grown (os : Platform) (m : Machine) (before : List Block) (last : Block) (query g : Nat)
    (m' : Machine) : Prop where
  asked : m'.calls = m.calls ++
    growthEvents os m.calls last.stop (regionSize os.pageSize query)
  refused : fixedAnswer os m.calls last.stop (regionSize os.pageSize query) = mapFailed →
    plainAnswer os m.calls last.stop (regionSize os.pageSize query) = mapFailed →
    g = null ∧ Chain m'.memory heapStart (before ++ [last])
  mapped : ¬ (fixedAnswer os m.calls last.stop (regionSize os.pageSize query) = mapFailed ∧
      plainAnswer os m.calls last.stop (regionSize os.pageSize query) = mapFailed) →
    ∃ r, regions m'.calls = regions m.calls ++ [r] ∧ r.length = regionSize os.pageSize query
  joined : ∀ r, regions m'.calls = regions m.calls ++ [r] → last.isFree = true →
    r.start = last.stop → g = last.addr ∧
      Chain m'.memory heapStart (before ++ [⟨last.addr, last.capacity + r.length, true⟩])
  appended : ∀ r, regions m'.calls = regions m.calls ++ [r] →
    ¬ (last.isFree = true ∧ r.start = last.stop) → g = r.start ∧
      Chain m'.memory heapStart
        (before ++ [last] ++ [⟨r.start, r.length - contentsOffset, true⟩])
  serves : g ≠ null → ∃ front block, Chain m'.memory heapStart (front ++ [block]) ∧
    block.addr = g ∧ block.isFree = true ∧ query ≤ block.capacity

section
variable {os : Platform} {m m' : Machine} {before : List Block} {last : Block} {query g : Nat}

theorem grown_of_refused {events : List MmapEvent} (heap : Heap m' (before ++ [last]))
    (asked : requestRegion (os.since m.calls) last.stop (regionSize os.pageSize query) =
      (mapFailed, events)) (calls : m'.calls = m.calls ++ events) :
    Grown os m before last query null m' := by
  obtain ⟨rfl, both⟩ := requestRegion_answers asked
  have same := requestRegion_none asked rfl
  have none : ∀ r, regions m'.calls ≠ regions m.calls ++ [r] := by
    intro r more
    rw [calls, regions_append, same, List.append_cancel_left_eq] at more
    cases more
  constructor
  · exact calls
  · exact fun _ _ => ⟨rfl, heap.chain⟩
  · exact fun some => absurd (both.mp rfl) some
  · exact fun r more => absurd more (none r)
  · exact fun r more => absurd more (none r)
  · exact fun nonnull => absurd rfl nonnull

theorem grown_of_mapped {front : List Block} {block : Block} {region : Nat}
    {events : List MmapEvent} (heap : Heap m' (front ++ [block]))
    (asked : requestRegion (os.since m.calls) last.stop (regionSize os.pageSize query) =
      (region, events)) (mapped : region ≠ mapFailed) (calls : m'.calls = m.calls ++ events)
    (grew : growth before last (freshBlock region (regionSize os.pageSize query)) =
      (front, block))
    (large : query ≤ (freshBlock region (regionSize os.pageSize query)).capacity) :
    Grown os m before last query block.addr m' := by
  obtain ⟨rfl, both⟩ := requestRegion_answers asked
  have one := requestRegion_one asked mapped
  have newest : ∀ r, regions m'.calls = regions m.calls ++ [r] →
      r = ⟨region, regionSize os.pageSize query⟩ := by
    intro r more
    rw [calls, regions_append, one, List.append_cancel_left_eq] at more
    exact (List.singleton_inj.mp more).symm
  have chain := heap.chain
  have fusible_iff : last.fusible (freshBlock region (regionSize os.pageSize query)) = true ↔
      last.isFree = true ∧ region = last.stop := by
    rw [Block.fusible_iff]
    exact ⟨fun all => ⟨all.1, all.2.2⟩, fun both => ⟨both.1, rfl, both.2⟩⟩
  constructor
  · exact calls
  · exact fun fixed plain => absurd (both.mpr ⟨fixed, plain⟩) mapped
  · exact fun _ => ⟨_, by rw [calls, regions_append, one], rfl⟩
  · intro r more free touching
    obtain rfl := newest r more
    rw [growth_joined (fusible_iff.mpr ⟨free, touching⟩)] at grew
    obtain ⟨rfl, rfl⟩ := Prod.mk.inj grew
    have whole := freshBlock_size region os.pageSize query
    rw [Block.fuse, whole, free] at chain
    exact ⟨rfl, chain⟩
  · intro r more apart
    obtain rfl := newest r more
    have border := Bool.eq_false_of_not_eq_true fun fusible => apart (fusible_iff.mp fusible)
    rw [growth_apart border] at grew
    obtain ⟨rfl, rfl⟩ := Prod.mk.inj grew
    exact ⟨rfl, chain⟩
  · exact fun _ => ⟨front, block, chain, rfl, (growth_takens rfl grew).2, growth_serves large grew⟩

end

/-- After a failed search growth asks for a region at the end of the region mapped last, which
is a page border. The list is left alone where there is no memory; the last block grows by the
whole region where it is free and the two meet; else a free block for the region is appended.
The block returned is free, the last one, and large enough. -/
theorem growHeap_exact {os : Platform} {initial : Nat} {s : System}
    (fits : roundUp os.pageSize (initial + contentsOffset) < 2 ^ 64)
    (reachable : ReachableFrom os initial s) {query addr : Nat} {m : Machine}
    (large : blockMinCapacity ≤ query)
    (admissible : roundUp os.pageSize (query + contentsOffset) < 2 ^ 64)
    (failed : tryMemallocExisting os query heapStart s.machine =
      some (⟨.reachedEndNotFound, addr⟩, m)) :
    ∃ before last, Chain m.memory heapStart (before ++ [last]) ∧ last.addr = addr ∧
      m.calls = s.machine.calls ∧
      (regions s.machine.calls).getLast?.map Span.stop = some last.stop ∧
      os.pageSize ∣ last.stop ∧
      ∃ g m', growHeap os addr query m = some (g, m') ∧ Grown os m before last query g m' := by
  obtain ⟨blocks, invariant, paged⟩ := reachable.paged fits
  obtain ⟨before, last, searched, rfl, calls, heap⟩ := invariant.heap.search_fails large failed
  have ends := last_region ((extents_fuses searched.fuses).trans invariant.heap.tiled)
    invariant.positive
  refine ⟨before, last, heap.chain, rfl, calls, ends, ?_, ?_⟩
  · rw [invariant.hint searched]
    exact paged.heapEnd
  · cases asked : requestRegion (os.since m.calls) last.stop (regionSize os.pageSize query) with
    | mk region events =>
        obtain ⟨g, m', returned, grown, effect⟩ := heap.grows asked
        refine ⟨g, m', returned, ?_⟩
        rcases effect with ⟨rfl, rfl, heap'⟩ | ⟨mapped, front, block, grew, rfl, heap'⟩
        · exact grown_of_refused heap' asked grown
        · exact grown_of_mapped heap' asked mapped grown grew
            (freshBlock_serves os.pageSize_pos admissible region)

theorem growHeap_exact_of_joined : ∃ s r m g m',
    session granting 8175 [.malloc 8000] = some s ∧
    tryMemallocExisting granting 20000 heapStart s.machine = some (r, m) ∧
    growHeap granting r.block 20000 m = some (g, m') ∧
    ∃ before last, Chain m.memory heapStart (before ++ [last]) ∧ 4096 ∣ last.stop ∧
      Grown granting m before last 20000 g m' := by
  have searched : ((session granting 8175 [.malloc 8000]).bind fun s =>
      tryMemallocExisting granting 20000 heapStart s.machine).map (fun r => r.1) =
        some ⟨.reachedEndNotFound, 67379025⟩ := by
    decide +kernel
  obtain ⟨⟨r, m⟩, found, same⟩ := Option.map_eq_some_iff.mp searched
  obtain ⟨s, started, failed⟩ := Option.bind_eq_some_iff.mp found
  obtain rfl : r = ⟨.reachedEndNotFound, 67379025⟩ := same
  obtain ⟨first, actions, returned, run, _⟩ := sessionIn_run (by decide) started
  have reachable : ReachableFrom granting 8175 s := ⟨_, first, actions, returned, run⟩
  obtain ⟨before, last, chain, _, _, _, aligned, g, m', grown, effect⟩ :=
    growHeap_exact (by decide) reachable (by decide) (by decide) failed
  exact ⟨s, _, m, g, m', started, failed, grown, before, last, chain, aligned, effect⟩

end MemoryAllocator
