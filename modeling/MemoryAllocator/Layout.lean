import MemoryAllocator.Exactness
import MemoryAllocator.History

/-! Where the blocks lie. The heap has exactly the gaps `mmap` made in it; as long as `mmap`
grants its hints there is none, and the list goes through one stretch of memory upwards. -/
namespace MemoryAllocator
open Foundation

/-- A region was mapped, but not where it was asked for. -/
def MmapEvent.displaced (e : MmapEvent) : Bool := e.answer != mapFailed && e.answer != e.call.addr

def displacements (calls : List MmapEvent) : Nat := calls.countP MmapEvent.displaced

def mappedBytes (calls : List MmapEvent) : Nat := ((regions calls).map Span.length).sum

theorem mappedBytes_append (calls later : List MmapEvent) :
    mappedBytes (calls ++ later) = mappedBytes calls + mappedBytes later := by
  simp [mappedBytes]

theorem displacements_append (calls later : List MmapEvent) :
    displacements (calls ++ later) = displacements calls + displacements later :=
  List.countP_append

theorem displacements_single (e : MmapEvent) :
    displacements [e] = if e.answer = mapFailed ∨ e.answer = e.call.addr then 0 else 1 := by
  by_cases failed : e.answer = mapFailed
  · simp [displacements, MmapEvent.displaced, failed]
  · by_cases granted : e.answer = e.call.addr
    · simp [displacements, MmapEvent.displaced, granted]
    · simp [displacements, MmapEvent.displaced, failed, granted]

theorem requestRegion_displaced {answer : Answers} {hint size region : Nat}
    {events : List MmapEvent} (asked : requestRegion answer hint size = (region, events)) :
    displacements events = if region = mapFailed ∨ region = hint then 0 else 1 := by
  unfold requestRegion at asked
  simp only at asked
  split at asked
  · rename_i failed
    obtain ⟨rfl, rfl⟩ := Prod.mk.inj asked
    rw [← List.singleton_append, displacements_append, displacements_single, if_pos (.inl failed),
      Nat.zero_add]
    exact displacements_single _
  · obtain ⟨rfl, rfl⟩ := Prod.mk.inj asked
    exact displacements_single _

theorem gaps_request {os : Platform} {calls events : List MmapEvent} {size region : Nat}
    (nonempty : regions calls ≠ [])
    (asked : requestRegion (os.since calls) (heapEnd calls) size = (region, events)) :
    gaps (regions (calls ++ events)) = gaps (regions calls) + displacements events := by
  rw [requestRegion_displaced asked, regions_append, requestRegion_regions asked]
  by_cases failed : region = mapFailed
  · simp [failed]
  · have ends := List.dropLast_concat_getLast nonempty
    have stop : heapEnd calls = ((regions calls).getLast nonempty).stop := by
      rw [heapEnd, List.getLast?_eq_some_getLast nonempty, Option.map_some, Option.getD_some]
    rw [if_neg failed, ← ends, gaps_concat, stop]
    simp only [failed, false_or]

section
variable {os : Platform} {s : System} {blocks : List Block}

theorem Invariant.regions_ne_nil (invariant : Invariant os s blocks) :
    regions s.machine.calls ≠ [] := by
  intro none
  obtain ⟨b, rest, rfl, _⟩ := invariant.heap.head
  have tiled := congrArg List.length invariant.heap.tiled
  have nonempty := WellFormed.size_pos b
  simp only [none, footprint_nil, extents_cons, List.length_append, List.length_nil, Span.cells,
    Block.span, cells_length] at tiled
  omega

theorem gaps_spans (blocks : List Block) :
    gaps (blocks.map Block.span) = breaks (extents blocks) := by
  refine (breaks_footprint fun t member => ?_).symm
  obtain ⟨b, _, rfl⟩ := List.mem_map.mp member
  exact WellFormed.size_pos b

theorem Invariant.gaps_eq (invariant : Invariant os s blocks) :
    gaps (blocks.map Block.span) = gaps (regions s.machine.calls) := by
  rw [gaps_spans, invariant.heap.tiled, breaks_footprint invariant.positive]

theorem Invariant.gaps_reply (invariant : Invariant os s blocks) {query : Nat} {r : Reply}
    (outcome : Outcome os.pageSize (os.since s.machine.calls) query blocks r) :
    gaps (regions (s.machine.calls ++ r.events)) =
      gaps (regions s.machine.calls) + displacements r.events := by
  cases outcome with
  | found => simp [displacements]
  | refused searched asked =>
      rw [invariant.hint searched] at asked
      exact gaps_request invariant.regions_ne_nil asked
  | grown searched asked _ _ =>
      rw [invariant.hint searched] at asked
      exact gaps_request invariant.regions_ne_nil asked

theorem Invariant.displaced_step (invariant : Invariant os s blocks) {s' : System}
    {action : Action} (step : AdmissibleStep os s action s')
    (counted : gaps (regions s.machine.calls) = displacements s.machine.calls) :
    gaps (regions s'.machine.calls) = displacements s'.machine.calls := by
  obtain ⟨_, step⟩ := step
  cases step with
  | malloc _ returned =>
      obtain ⟨outcome, _, grown, _, _⟩ := invariant.heap.replied returned
      rw [grown, displacements_append, ← counted]
      exact invariant.gaps_reply outcome
  | free live returned =>
      rw [(invariant.free_step live returned).1]
      exact counted
  | write => exact counted

theorem Started.no_displacement (started : Started os s) :
    gaps (regions s.machine.calls) = displacements s.machine.calls := by
  obtain ⟨_, returned⟩ := started
  obtain ⟨asked, _⟩ := init_invariant returned
  have none := requestRegion_displaced asked
  have one := requestRegion_one asked (by decide)
  rw [if_pos (.inr rfl)] at none
  rw [none, one]
  rfl

theorem Reachable.displaced (reachable : Reachable os s) :
    ∃ blocks, Invariant os s blocks ∧
      gaps (regions s.machine.calls) = displacements s.machine.calls := by
  obtain ⟨start, actions, started, run⟩ := reachable
  have first := started.no_displacement
  obtain ⟨_, returned⟩ := started
  refine run.invariant (I := fun s => ∃ blocks, Invariant os s blocks ∧
    gaps (regions s.machine.calls) = displacements s.machine.calls) ?_
    ⟨_, (init_invariant returned).2, first⟩
  rintro s action s' ⟨blocks, invariant, counted⟩ step
  obtain ⟨blocks', invariant'⟩ := invariant.step step.safe
  exact ⟨blocks', invariant', invariant.displaced_step step counted⟩

theorem touching_of_spans (none : gaps (blocks.map Block.span) = 0) :
    Touching Block.span blocks :=
  (List.isChain_map Block.span).mp (touching_of_no_gaps none)

theorem Invariant.one_stretch (invariant : Invariant os s blocks)
    (none : gaps (blocks.map Block.span) = 0) :
    extents blocks = cells heapStart (mappedBytes s.machine.calls) := by
  obtain ⟨b, rest, rfl, start, _⟩ := invariant.heap.head
  have whole : footprint (b.span :: rest.map Block.span) = _ := footprint_of_no_gaps none
  have tiled := congrArg List.length invariant.heap.tiled
  rw [extents, footprint_length, footprint_length] at tiled
  rw [extents, List.map_cons, whole, ← List.map_cons, tiled]
  exact congrArg (cells · _) start

theorem Invariant.stretch_end (invariant : Invariant os s blocks)
    (none : gaps (blocks.map Block.span) = 0) :
    heapEnd s.machine.calls = heapStart + mappedBytes s.machine.calls := by
  have nonempty := invariant.heap.nonempty
  have whole := invariant.one_stretch none
  have ends := invariant.heapEnd_eq (List.getLast?_eq_some_getLast nonempty)
  have positive := WellFormed.size_pos (blocks.getLast nonempty)
  rw [← List.dropLast_concat_getLast nonempty] at whole
  have filled := congrArg List.length whole
  simp only [extents_append, extents_cons, extents_nil, List.append_nil, List.length_append,
    Span.cells, Block.span, cells_length] at filled
  have same : footprint (blocks.dropLast.map Block.span ++ [(blocks.getLast nonempty).span]) =
      footprint ([] ++ [⟨heapStart, mappedBytes s.machine.calls⟩]) := by
    simpa [extents, Span.cells] using whole
  rw [ends]
  exact stop_eq_of_footprint_eq positive (by simp only; omega) same

end

/-- The list has as many gaps as regions were mapped elsewhere than at the hint. Where there
were none, it is one stretch of memory from `heapStart`, and each block begins where the one
before it ends. -/
theorem contiguous_as_mapped {os : Platform} {s : System} (reachable : Reachable os s) :
    ∃ blocks, Chain s.machine.memory heapStart blocks ∧
      gaps (blocks.map Block.span) = displacements s.machine.calls ∧
      (displacements s.machine.calls = 0 →
        extents blocks = cells heapStart (mappedBytes s.machine.calls) ∧
        heapEnd s.machine.calls = heapStart + mappedBytes s.machine.calls ∧
        Touching Block.span blocks) := by
  obtain ⟨blocks, invariant, counted⟩ := reachable.displaced
  have same := invariant.gaps_eq.trans counted
  refine ⟨blocks, invariant.heap.chain, same, fun none => ?_⟩
  have touching := same.trans none
  exact ⟨invariant.one_stretch touching, invariant.stretch_end touching,
    touching_of_spans touching⟩

theorem contiguous_as_mapped_of_three : ∃ s blocks,
    session granting 8175 sampleRequests = some s ∧ Chain s.machine.memory heapStart blocks ∧
    extents blocks = cells heapStart 20480 ∧ Touching Block.span blocks := by
  obtain ⟨s, performed, _, calls⟩ := sample_calls
  obtain ⟨blocks, chain, _, whole⟩ :=
    contiguous_as_mapped (session_reachable (by decide) (by decide) performed)
  rw [calls] at whole
  obtain ⟨stretch, _, touching⟩ := whole (by decide)
  exact ⟨s, blocks, performed, chain, stretch, touching⟩

/-- The cells of the free blocks. -/
def freeCells (blocks : List Block) : List Nat := extents (blocks.filter Block.isFree)

theorem mem_freeCells {blocks : List Block} {x : Nat} :
    x ∈ freeCells blocks ↔ ∃ b ∈ blocks, b.isFree = true ∧ b.addr ≤ x ∧ x < b.stop := by
  simp [freeCells, mem_extents, and_assoc]

theorem freeCells_fuses {l m : List Block} (fuses : Block.fusion.Fuses l m) :
    freeCells m = freeCells l := by
  apply fuses.invariant
  intro pre a b post fusible
  obtain ⟨aFree, bFree, _⟩ := Block.fusible_iff.mp fusible
  have joined := extents_fuse fusible (post.filter Block.isFree)
  simp only [freeCells, List.filter_append, extents_append]
  rw [List.filter_cons_of_pos (a := a) aFree, List.filter_cons_of_pos bFree, ← joined,
    List.filter_cons_of_pos (a := Block.fusion.fuse a b) aFree]
  rfl

section
variable {blocks : List Block} {query x : Nat}

theorem stretch_pos (query : Nat) : 0 < contentsOffset + query := by
  simp only [contentsOffset]
  omega

/-- In a settled list without gaps a stretch of free cells lies in one block. -/
theorem stretch_within {l : List Block} {n : Nat} (separated : Block.fusion.Separated l)
    (touching : Touching Block.span l) (some : 0 < n) (inside : cells x n ⊆ freeCells l) :
    ∃ f ∈ l, f.isFree = true ∧ f.addr ≤ x ∧ x + n ≤ f.stop := by
  have opened : ∀ y, x ≤ y → y < x + n →
      ∃ a ∈ l, (!a.isFree) = false ∧ (Block.span a).start ≤ y ∧ y < (Block.span a).stop := by
    intro y lower upper
    obtain ⟨b, member, free, starts, ends⟩ :=
      mem_freeCells.mp (inside (mem_cells.mpr ⟨lower, upper⟩))
    exact ⟨b, member, by simp [free], starts, ends⟩
  obtain ⟨f, member, free, lower, upper⟩ :=
    (gapped_of_separated separated).within WellFormed.size_pos touching some opened
  exact ⟨f, member, by simpa using free, lower, upper⟩

theorem fits_of_stretch {f : Block} (free : f.isFree = true) (lower : f.addr ≤ x)
    (upper : x + (contentsOffset + query) ≤ f.stop) : f.fits query = true := by
  refine Block.fits_iff.mpr ⟨free, ?_⟩
  simp only [Block.stop, Block.size] at upper
  omega

theorem nowhere_of_bad {l : List Block} (separated : Block.fusion.Separated l)
    (touching : Touching Block.span l) (bad : ∀ b ∈ l, b.fits query = false) :
    ¬ cells x (contentsOffset + query) ⊆ freeCells l := by
  intro inside
  obtain ⟨f, member, free, lower, upper⟩ :=
    stretch_within separated touching (stretch_pos query) inside
  have small := bad f member
  rw [fits_of_stretch free lower upper] at small
  cases small

/-- The first block that fits begins where the lowest stretch of free cells does that is long
enough. -/
theorem first_lowest {before after : List Block} {good : Block}
    (separated : Block.fusion.Separated (before ++ good :: after))
    (touching : Touching Block.span (before ++ good :: after)) (fits : good.fits query = true)
    (bad : ∀ b ∈ before, b.fits query = false) :
    IsLeast {x | cells x (contentsOffset + query) ⊆ freeCells (before ++ good :: after)}
      good.addr := by
  obtain ⟨free, enough⟩ := Block.fits_iff.mp fits
  constructor
  · intro y inside
    obtain ⟨lower, upper⟩ := mem_cells.mp inside
    refine mem_freeCells.mpr ⟨good, by simp, free, lower, ?_⟩
    simp only [Block.stop, Block.size]
    omega
  · intro x inside
    obtain ⟨f, member, fFree, lower, upper⟩ :=
      stretch_within separated touching (stretch_pos query) inside
    have ascending := touching.ascending WellFormed.size_pos
    rcases List.mem_append.mp member with front | back
    · have small := bad f front
      rw [fits_of_stretch fFree lower upper] at small
      cases small
    · rcases List.mem_cons.mp back with rfl | back
      · exact lower
      · have later := (List.pairwise_cons.mp (List.pairwise_append.mp ascending).2.1).1 f back
        exact (Nat.le_add_right _ _).trans (later.trans lower)

theorem settled_touching (none : gaps (blocks.map Block.span) = 0) :
    Touching Block.span (Block.fusion.coalesce blocks) := by
  have fuses := Fusion.fuses_coalesce (F := Block.fusion) blocks
  rw [gaps_spans, ← extents_fuses fuses, ← gaps_spans] at none
  exact touching_of_spans none

theorem found_lowest {before after : List Block} {good : Block}
    (searched : Searched query blocks (.found before good after))
    (none : gaps (blocks.map Block.span) = 0) :
    IsLeast {x | cells x (contentsOffset + query) ⊆ freeCells blocks} good.addr := by
  have settled : Block.fusion.coalesce blocks = before ++ good :: Block.fusion.coalesce after :=
    searched.fused
  have separated := Fusion.coalesce_separated (F := Block.fusion) blocks
  have touching := settled_touching none
  rw [← freeCells_fuses (Fusion.fuses_coalesce (F := Block.fusion) blocks)]
  rw [settled] at separated touching ⊢
  exact first_lowest separated touching searched.decides.1 searched.decides.2

theorem exhausted_nowhere {before : List Block} {last : Block}
    (searched : Searched query blocks (.exhausted before last))
    (none : gaps (blocks.map Block.span) = 0) :
    ¬ cells x (contentsOffset + query) ⊆ freeCells blocks := by
  have settled : Block.fusion.coalesce blocks = before ++ [last] := searched.fused
  rw [← freeCells_fuses (Fusion.fuses_coalesce (F := Block.fusion) blocks)]
  apply nowhere_of_bad (Fusion.coalesce_separated blocks) (settled_touching none)
  rw [settled]
  exact searched.decides

end

theorem sample_granted : ∃ s, session granting 8175 sampleRequests = some s ∧
    displacements s.machine.calls = 0 ∧ heapEnd s.machine.calls = 67391488 := by
  obtain ⟨s, performed, _, calls⟩ := sample_calls
  refine ⟨s, performed, ?_⟩
  rw [calls]
  constructor <;> decide

/-- As long as `mmap` has granted its hints, a request is served at the lowest address where
header and contents fit into free cells, whatever blocks these belong to; it makes the heap
grow only where there is no such address. -/
theorem malloc_lowest {os : Platform} {s : System} (reachable : Reachable os s)
    (granted : displacements s.machine.calls = 0) (query : Nat) :
    ∃ blocks, Chain s.machine.memory heapStart blocks ∧
      ∃ pointer m', malloc os query s.machine = some (pointer, m') ∧
        ((m'.calls = s.machine.calls ∧ ∃ x, pointer = x + contentsOffset ∧
            IsLeast {x | cells x (contentsOffset + max query blockMinCapacity) ⊆ freeCells blocks}
              x) ∨
          (m'.calls ≠ s.machine.calls ∧ ∀ x,
            ¬ cells x (contentsOffset + max query blockMinCapacity) ⊆ freeCells blocks)) := by
  obtain ⟨blocks, invariant, counted⟩ := reachable.displaced
  have none := invariant.gaps_eq.trans (counted.trans granted)
  obtain ⟨pointer, m', returned⟩ := invariant.malloc_returns query
  obtain ⟨outcome, pointed, calls, _, _⟩ := invariant.heap.replied returned
  refine ⟨blocks, invariant.heap.chain, pointer, m', returned, ?_⟩
  rw [pointed, calls]
  generalize ListAllocator.malloc os.pageSize (os.since s.machine.calls) query blocks = r at outcome
  cases outcome with
  | @found before after good searched =>
      exact .inl ⟨List.append_nil _, good.addr, rfl, found_lowest searched none⟩
  | refused searched asked =>
      refine .inr ⟨?_, fun x => exhausted_nowhere searched none⟩
      simpa using requestRegion_events asked
  | grown searched asked _ _ =>
      refine .inr ⟨?_, fun x => exhausted_nowhere searched none⟩
      simpa using requestRegion_events asked

theorem malloc_lowest_of_three : ∃ s blocks pointer m',
    session granting 8175 sampleRequests = some s ∧ Chain s.machine.memory heapStart blocks ∧
    malloc granting 100 s.machine = some (pointer, m') ∧
    ((m'.calls = s.machine.calls ∧ ∃ x, pointer = x + contentsOffset ∧
        IsLeast {x | cells x 117 ⊆ freeCells blocks} x) ∨
      (m'.calls ≠ s.machine.calls ∧ ∀ x, ¬ cells x 117 ⊆ freeCells blocks)) := by
  obtain ⟨s, performed, granted, _⟩ := sample_granted
  have reachable := session_reachable (by decide) (by decide) performed
  obtain ⟨blocks, chain, pointer, m', returned, lowest⟩ := malloc_lowest reachable granted 100
  exact ⟨s, blocks, pointer, m', performed, chain, returned, lowest⟩

end MemoryAllocator
