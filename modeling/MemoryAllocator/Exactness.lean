import MemoryAllocator.FreeRuns

/-! When a request is served from the heap, when it makes the heap grow, and which pointer it
gets: the answer is a matter of the free runs and of `mmap` alone. -/
namespace MemoryAllocator
open Foundation

/-- How `mmap` answers the call that insists on the hint. -/
def fixedAnswer (os : Platform) (calls : List MmapEvent) (hint size : Nat) : Nat :=
  os.mmap calls (mapPagesCall hint size mapFixedNoreplace)

/-- How it answers the plain call that follows when the first has failed. -/
def plainAnswer (os : Platform) (calls : List MmapEvent) (hint size : Nat) : Nat :=
  os.mmap (calls ++ [⟨mapPagesCall hint size mapFixedNoreplace, mapFailed⟩])
    (mapPagesCall hint size 0)

def growthEvents (os : Platform) (calls : List MmapEvent) (hint size : Nat) : List MmapEvent :=
  if fixedAnswer os calls hint size = mapFailed then
    [⟨mapPagesCall hint size mapFixedNoreplace, mapFailed⟩,
      ⟨mapPagesCall hint size 0, plainAnswer os calls hint size⟩]
  else [⟨mapPagesCall hint size mapFixedNoreplace, fixedAnswer os calls hint size⟩]

/-- What a request does that no free run of the list can serve: it asks for a region behind the
last block, and the pointer depends on where the region lies. -/
structure Grows (os : Platform) (calls calls' : List MmapEvent) (blocks : List Block)
    (size pointer : Nat) (last : Block) : Prop where
  null_iff : pointer = null ↔ fixedAnswer os calls last.stop size = mapFailed ∧
    plainAnswer os calls last.stop size = mapFailed
  asked : calls' = calls ++ growthEvents os calls last.stop size
  joined : pointer ≠ null → ∀ r ∈ (regions calls').getLast?, ∀ pre a run,
    FreeRun blocks pre (a :: run) [] → r.start = last.stop → pointer = a.contents
  fresh : pointer ≠ null → ∀ r ∈ (regions calls').getLast?,
    ((∀ pre run, ¬ FreeRun blocks pre run []) ∨ r.start ≠ last.stop) →
      pointer = r.start + contentsOffset

section
variable {os : Platform} {s : System} {blocks : List Block}

theorem requestRegion_answers {calls events : List MmapEvent} {hint size region : Nat}
    (asked : requestRegion (os.since calls) hint size = (region, events)) :
    events = growthEvents os calls hint size ∧ (region = mapFailed ↔
      fixedAnswer os calls hint size = mapFailed ∧ plainAnswer os calls hint size = mapFailed) := by
  have first : os.since calls [] (mapPagesCall hint size mapFixedNoreplace) =
      fixedAnswer os calls hint size := by
    simp only [Platform.since, List.append_nil, fixedAnswer]
  simp only [requestRegion, first] at asked
  unfold growthEvents
  split at asked
  · rename_i failed
    obtain ⟨rfl, rfl⟩ := Prod.mk.inj asked
    rw [if_pos failed, failed]
    exact ⟨rfl, (and_iff_right rfl).symm⟩
  · rename_i mapped
    obtain ⟨rfl, rfl⟩ := Prod.mk.inj asked
    rw [if_neg mapped]
    exact ⟨rfl, iff_of_false mapped fun both => mapped both.1⟩

theorem Invariant.heapEnd_eq (invariant : Invariant os s blocks) {last : Block}
    (ends : last ∈ blocks.getLast?) : heapEnd s.machine.calls = last.stop := by
  obtain ⟨before, rfl⟩ := List.getLast?_eq_some_iff.mp ends
  rw [heapEnd, last_region invariant.heap.tiled invariant.positive, Option.getD_some]

theorem growth_contents {query : Nat} {before front : List Block} {last block : Block}
    {region size : Nat} (searched : Searched query blocks (.exhausted before last))
    (grew : growth before last (freshBlock region size) = (front, block)) :
    (∀ pre a run, FreeRun blocks pre (a :: run) [] → region = last.stop →
        block.contents = a.contents) ∧
      (((∀ pre run, ¬ FreeRun blocks pre run []) ∨ region ≠ last.stop) →
        block.contents = region + contentsOffset) := by
  unfold growth at grew
  split at grew
  · rename_i fusible
    obtain ⟨rfl, rfl⟩ := Prod.mk.inj grew
    obtain ⟨lastFree, _, touching⟩ := Block.fusible_iff.mp fusible
    refine ⟨fun pre a run free _ => (exhausted_last searched free).2, ?_⟩
    rintro (none | elsewhere)
    · rw [exhausted_last_taken searched none] at lastFree
      cases lastFree
    · exact absurd touching elsewhere
  · rename_i apart
    obtain ⟨rfl, rfl⟩ := Prod.mk.inj grew
    refine ⟨fun pre a run free touching => ?_, fun _ => rfl⟩
    have fusible := Block.fusible_iff (b := freshBlock region size).mpr
      ⟨(exhausted_last searched free).1, rfl, touching⟩
    exact absurd fusible apart

theorem grows_of_refused {calls events : List MmapEvent} {last : Block} {size : Nat}
    (asked : requestRegion (os.since calls) last.stop size = (mapFailed, events)) :
    Grows os calls (calls ++ events) blocks size null last := by
  obtain ⟨rfl, both⟩ := requestRegion_answers asked
  refine ⟨iff_of_true rfl (both.mp rfl), rfl, ?_, ?_⟩
  · exact fun nonnull => absurd rfl nonnull
  · exact fun nonnull => absurd rfl nonnull

theorem grows_of_mapped {query : Nat} {calls events : List MmapEvent} {before front : List Block}
    {last last' block : Block} {region : Nat}
    (searched : Searched query blocks (.exhausted before last')) (hint : last'.stop = last.stop)
    (asked : requestRegion (os.since calls) last.stop (regionSize os.pageSize query) =
      (region, events))
    (mapped : region ≠ mapFailed)
    (grew : growth before last' (freshBlock region (regionSize os.pageSize query)) =
      (front, block)) :
    Grows os calls (calls ++ events) blocks (regionSize os.pageSize query) block.contents last := by
  have contents := growth_contents searched grew
  have one := requestRegion_one asked mapped
  rw [hint] at contents
  have newest : ∀ r ∈ (regions (calls ++ events)).getLast?, r.start = region := by
    intro r member
    rw [regions_append, one, List.getLast?_concat] at member
    exact congrArg Span.start (Option.some.inj member).symm
  obtain ⟨same, both⟩ := requestRegion_answers asked
  refine ⟨iff_of_false block.contents_ne_null fun failed => mapped (both.mpr failed),
    congrArg _ same, ?_, ?_⟩
  · intro _ r member pre a run free touching
    exact contents.1 pre a run free ((newest r member).symm.trans touching)
  · intro _ r member elsewhere
    rw [newest r member] at elsewhere ⊢
    exact contents.2 elsewhere

theorem Invariant.malloc_by_runs (invariant : Invariant os s blocks) (query : Nat) :
    ∃ pointer m', malloc os query s.machine = some (pointer, m') ∧
      ((∃ pre run post, FreeRun blocks pre run post ∧ Large (max query blockMinCapacity) run) →
        m'.calls = s.machine.calls ∧ ∃ pre a run post,
          FirstRun (fun b => b.isFree = true) (Large (max query blockMinCapacity)) blocks
            pre (a :: run) post ∧ pointer = a.contents) ∧
      ((∀ pre run post, FreeRun blocks pre run post → ¬ Large (max query blockMinCapacity) run) →
        ∀ last ∈ blocks.getLast?, Grows os s.machine.calls m'.calls blocks
          (regionSize os.pageSize (max query blockMinCapacity)) pointer last) := by
  obtain ⟨pointer, m', returned⟩ := invariant.malloc_returns query
  obtain ⟨outcome, pointed, calls, _, _⟩ := invariant.heap.replied returned
  refine ⟨pointer, m', returned, ?_⟩
  rw [pointed, calls]
  generalize ListAllocator.malloc os.pageSize (os.since s.machine.calls) query blocks = r at outcome
  cases outcome with
  | @found before after good searched =>
      obtain ⟨pre, a, run, post, first, same⟩ := found_first_run searched
      refine ⟨fun _ => ⟨List.append_nil _, pre, a, run, post, first, same.symm⟩, fun none => ?_⟩
      exact absurd first.large (none pre (a :: run) post first.maximal)
  | @refused before last' events searched asked =>
      refine ⟨?_, fun _ last ends => ?_⟩
      · rintro ⟨pre, run, post, free, large⟩
        exact absurd large (exhausted_small searched free)
      · rw [invariant.hint searched, invariant.heapEnd_eq ends] at asked
        exact grows_of_refused asked
  | @grown before front last' block region events searched asked mapped grew =>
      refine ⟨?_, fun _ last ends => ?_⟩
      · rintro ⟨pre, run, post, free, large⟩
        exact absurd large (exhausted_small searched free)
      · have hint : last'.stop = last.stop :=
          (invariant.hint searched).trans (invariant.heapEnd_eq ends)
        rw [hint] at asked
        exact grows_of_mapped searched hint asked mapped grew

theorem Invariant.takens_nil (invariant : Invariant os s blocks) (freed : s.live = []) :
    takens blocks = [] := by
  by_contra nonempty
  obtain ⟨b, taken⟩ := List.exists_mem_of_ne_nil _ nonempty
  obtain ⟨a, live, _⟩ := invariant.owned.owned b taken
  rw [freed] at live
  cases live

theorem free_of_takens_nil (none : takens blocks = []) : ∀ b ∈ blocks, b.isFree = true := by
  intro b member
  by_contra taken
  have isTaken := mem_takens.mpr ⟨member, Bool.eq_false_of_not_eq_true taken⟩
  rw [none] at isTaken
  cases isTaken

theorem maximal_iff_free (free : ∀ b ∈ blocks, b.isFree = true) {pre run post : List Block} :
    MaximalRun (fun _ => True) blocks pre run post ↔ FreeRun blocks pre run post := by
  constructor
  · rintro ⟨rfl, nonempty, _, touching, left, right⟩
    refine ⟨rfl, nonempty, fun b member => free b (by simp [member]), touching, ?_, ?_⟩
    · exact fun a last b head both => left a last b head ⟨trivial, both.2⟩
    · exact fun a last b head both => right a last b head ⟨trivial, both.2⟩
  · rintro ⟨rfl, nonempty, _, touching, left, right⟩
    refine ⟨rfl, nonempty, fun _ _ => trivial, touching, ?_, ?_⟩
    · intro a last b head both
      exact left a last b head ⟨free a (by simp [List.mem_of_getLast? last]), both.2⟩
    · intro a last b head both
      exact right a last b head ⟨free b (by simp [List.mem_of_mem_head? head]), both.2⟩

theorem first_region_covered {f : Block} {rest : List Block} {r : Span} {later : List Span}
    (free : ∀ b ∈ f :: rest, b.isFree = true) (separated : Block.fusion.Separated (f :: rest))
    (tiled : extents (f :: rest) = footprint (r :: later)) : r.length ≤ f.size := by
  by_contra short
  cases rest with
  | nil =>
      have lengths := congrArg List.length tiled
      simp only [extents_cons, extents_nil, List.append_nil, footprint_cons, List.length_append,
        Span.cells, cells_length, Block.span] at lengths
      omega
  | cons c rest =>
      have touching := touching_of_footprint_eq (s := f.span) (t := c.span)
        (WellFormed.size_pos f) (WellFormed.size_pos c) (Nat.lt_of_not_le short) tiled
      have fusible : Block.fusion.fusible f c = true :=
        Block.fusible_iff.mpr ⟨free f (by simp), free c (by simp), touching⟩
      exact absurd fusible (Bool.eq_false_iff.mp (List.isChain_cons_cons.mp separated).1)

theorem Invariant.head_run (invariant : Invariant os s blocks) (freed : s.live = []) {r : Span}
    (first : r ∈ (regions s.machine.calls).head?) :
    ∃ a run post, FreeRun blocks [] (a :: run) post ∧ r.length ≤ extent (a :: run) := by
  have fuses := Fusion.fuses_coalesce (F := Block.fusion) blocks
  have free := free_of_takens_nil ((takens_fuses fuses).trans (invariant.takens_nil freed))
  have tiled := (extents_fuses fuses).trans invariant.heap.tiled
  have separated := Fusion.coalesce_separated (F := Block.fusion) blocks
  cases settled : Block.fusion.coalesce blocks with
  | nil => exact absurd (Fusion.coalesce_eq_nil settled) invariant.heap.nonempty
  | cons f rest =>
      obtain ⟨later, mapped⟩ := List.head?_eq_some_iff.mp first
      rw [settled] at free separated tiled
      rw [mapped] at tiled
      have covered := first_region_covered free separated tiled
      obtain ⟨pre, a, run, post, isRun, rfl, front, _⟩ :=
        freeRun_of_settled (x := []) (free f List.mem_cons_self) settled
      obtain rfl := Fusion.coalesce_eq_nil front
      refine ⟨a, run, post, isRun, covered.trans (le_of_eq ?_)⟩
      rw [extent_eq (List.cons_ne_nil a run), Block.size, fuseAll_capacity, Nat.add_comm]

theorem Heap.head_contents {m : Machine} {a : Block} {rest : List Block}
    (heap : Heap m (a :: rest)) : a.contents = heapStart + contentsOffset := by
  have start := heap.start
  rw [headAddr_cons] at start
  rw [Block.contents, start]

end

/-- A request is served by the first free run that is large enough, without a call of `mmap`;
where there is none the heap grows behind its last block, and the request fails exactly when
both calls do. -/
theorem malloc_exact {os : Platform} {s : System} (reachable : Reachable os s) (query : Nat) :
    ∃ blocks, Chain s.machine.memory heapStart blocks ∧
      ∃ pointer m', malloc os query s.machine = some (pointer, m') ∧
        ((∃ pre run post, FreeRun blocks pre run post ∧ Large (max query blockMinCapacity) run) →
          m'.calls = s.machine.calls ∧ ∃ pre a run post,
            FirstRun (fun b => b.isFree = true) (Large (max query blockMinCapacity)) blocks
              pre (a :: run) post ∧ pointer = a.contents) ∧
        ((∀ pre run post, FreeRun blocks pre run post →
            ¬ Large (max query blockMinCapacity) run) →
          ∀ last ∈ blocks.getLast?, Grows os s.machine.calls m'.calls blocks
            (regionSize os.pageSize (max query blockMinCapacity)) pointer last) := by
  obtain ⟨blocks, invariant⟩ := reachable.invariant
  exact ⟨blocks, invariant.heap.chain, invariant.malloc_by_runs query⟩

theorem malloc_exact_of_growth : ∃ s,
    session granting 8175 [.malloc 100, .malloc 200, .free 67371025] = some s ∧
    ∃ blocks m', Chain s.machine.memory heapStart blocks ∧
      malloc granting 20000 s.machine = some (67371359, m') ∧
      (∀ pre run post, FreeRun blocks pre run post → ¬ Large 20000 run) ∧
      ∀ last ∈ blocks.getLast?,
        Grows granting s.machine.calls m'.calls blocks 20480 67371359 last := by
  have first : ((session granting 8175 [.malloc 100, .malloc 200, .free 67371025]).bind fun s =>
      (malloc granting 20000 s.machine).map fun reply =>
        (reply.1, s.machine.calls.length, reply.2.calls.length)) = some (67371359, 1, 2) := by
    decide +kernel
  obtain ⟨s, started, returned⟩ := Option.bind_eq_some_iff.mp first
  obtain ⟨⟨pointer, m'⟩, returned, same⟩ := Option.map_eq_some_iff.mp returned
  obtain ⟨rfl, lengths⟩ := Prod.mk.inj same
  obtain ⟨before, after⟩ := Prod.mk.inj lengths
  have reachable := session_reachable (by decide) (by decide) started
  obtain ⟨blocks, chain, pointer', m'', returned', served, grown⟩ := malloc_exact reachable 20000
  obtain ⟨rfl, rfl⟩ := Prod.mk.inj (Option.some.inj (returned'.symm.trans returned))
  have none : ∀ pre run post, FreeRun blocks pre run post → ¬ Large 20000 run := by
    intro pre run post free large
    obtain ⟨calls, _⟩ := served ⟨pre, run, post, free, large⟩
    rw [calls, before] at after
    exact absurd after (by decide)
  exact ⟨s, started, blocks, m'', chain, returned, none, grown none⟩

/-- Once everything has been freed, contiguous blocks serve any request that fits in all of
them together, and the first region is whole again. -/
theorem no_fragmentation {os : Platform} {s : System} (reachable : Reachable os s)
    (freed : s.live = []) (query : Nat) :
    ∃ blocks, Chain s.machine.memory heapStart blocks ∧
      ∃ pointer m', malloc os query s.machine = some (pointer, m') ∧
        ((∃ pre run post, MaximalRun (fun _ => True) blocks pre run post ∧
            max query blockMinCapacity + contentsOffset ≤ extent run) →
          m'.calls = s.machine.calls ∧ ∃ pre a run post,
            FirstRun (fun _ => True)
              (fun run => max query blockMinCapacity + contentsOffset ≤ extent run) blocks
              pre (a :: run) post ∧ pointer = a.addr + contentsOffset) ∧
        (∀ r ∈ (regions s.machine.calls).head?,
          max query blockMinCapacity + contentsOffset ≤ r.length →
            m'.calls = s.machine.calls ∧ pointer = heapStart + contentsOffset) := by
  obtain ⟨blocks, invariant⟩ := reachable.invariant
  have free := free_of_takens_nil (invariant.takens_nil freed)
  obtain ⟨pointer, m', returned, served, _⟩ := invariant.malloc_by_runs query
  have whole : ∀ {pre run post}, FreeRun blocks pre run post →
      (max query blockMinCapacity + contentsOffset ≤ extent run ↔
        Large (max query blockMinCapacity) run) := by
    intro pre run post isRun
    rw [extent_eq isRun.nonempty, Nat.add_le_add_iff_right]
  refine ⟨blocks, invariant.heap.chain, pointer, m', returned, ?_, ?_⟩
  · rintro ⟨pre, run, post, maximal, large⟩
    have isRun := (maximal_iff_free free).mp maximal
    obtain ⟨calls, pre', a, run', post', first, same⟩ :=
      served ⟨pre, run, post, isRun, (whole isRun).mp large⟩
    refine ⟨calls, pre', a, run', post',
      ⟨(maximal_iff_free free).mpr first.maximal, (whole first.maximal).mpr first.large, ?_⟩, same⟩
    intro pre'' run'' post'' earlier before large'
    have isRun'' := (maximal_iff_free free).mp earlier
    exact first.first pre'' run'' post'' isRun'' before ((whole isRun'').mp large')
  · intro r initial fits
    obtain ⟨b, run, post, isRun, covered⟩ := invariant.head_run freed initial
    have large := (whole isRun).mp (fits.trans covered)
    obtain ⟨calls, pre', a, run', post', first, same⟩ := served ⟨[], b :: run, post, isRun, large⟩
    refine ⟨calls, same.trans ?_⟩
    obtain rfl : pre' = [] := by
      by_contra later
      exact first.first [] (b :: run) post isRun (List.length_pos_of_ne_nil later) large
    have heap := invariant.heap
    rw [first.maximal.split] at heap
    exact heap.head_contents

theorem no_fragmentation_after_frees : ∃ s,
    session granting 8175 [.malloc 100, .malloc 200, .malloc 9000, .free 67371025,
      .free 67371359, .free 67371142] = some s ∧
    ∃ m', malloc granting 8175 s.machine = some (heapStart + contentsOffset, m') ∧
      m'.calls = s.machine.calls := by
  have ended : (session granting 8175 [.malloc 100, .malloc 200, .malloc 9000, .free 67371025,
      .free 67371359, .free 67371142]).map (fun s =>
        (s.live, (regions s.machine.calls).head?)) = some ([], some ⟨heapStart, 8192⟩) := by
    decide +kernel
  obtain ⟨s, started, same⟩ := Option.map_eq_some_iff.mp ended
  obtain ⟨freed, first⟩ := Prod.mk.inj same
  have reachable := session_reachable (by decide) (by decide) started
  obtain ⟨_, _, pointer, m', returned, _, initial⟩ := no_fragmentation reachable freed 8175
  obtain ⟨calls, rfl⟩ := initial _ first (by decide)
  exact ⟨s, started, m', returned, calls⟩

end MemoryAllocator
