import MemoryAllocator.Serving

/-! Growing the heap: a region is requested at the end of the last block, its single free
block is linked in, and it is merged into the last block where the two meet. -/
namespace MemoryAllocator
open Foundation

theorem sizeMax_lt {x y : Nat} (xFits : x < 2 ^ 64) (yFits : y < 2 ^ 64) :
    sizeMax x y < 2 ^ 64 := by
  unfold sizeMax
  split <;> assumption

theorem regionSize_bounds (pageSize query : Nat) :
    regionMinSize ≤ regionSize pageSize query ∧ regionSize pageSize query < 2 ^ 64 := by
  refine ⟨regionActualSize_ge _ _, sizeMax_lt ?_ (by decide)⟩
  exact Nat.mod_lt _ (by decide)

/-- Both calls of a request are lawful, and a failed first call maps nothing. -/
theorem requestRegion_lawful {os : Platform} {calls events : List MmapEvent}
    {hint size region : Nat} (asked : requestRegion (os.since calls) hint size = (region, events))
    (mapped : region ≠ mapFailed) :
    region ≠ null ∧ os.pageSize ∣ region ∧ region + size < 2 ^ 64 ∧
      ∀ r ∈ regions calls, Span.Apart r ⟨region, size⟩ := by
  unfold requestRegion at asked
  simp only at asked
  split at asked
  · rename_i failed
    obtain ⟨rfl, rfl⟩ := Prod.mk.inj asked
    have lawful := os.mmap_lawful
      (calls ++ [⟨mapPagesCall hint size mapFixedNoreplace,
        os.since calls [] (mapPagesCall hint size mapFixedNoreplace)⟩]) (mapPagesCall hint size 0)
    obtain ⟨nonnull, aligned, bound, fresh⟩ := lawful.resolve_left mapped
    refine ⟨nonnull, aligned, bound, ?_⟩
    intro r member
    exact fresh r (by simp [member])
  · obtain ⟨rfl, rfl⟩ := Prod.mk.inj asked
    have lawful := os.mmap_lawful (calls ++ []) (mapPagesCall hint size mapFixedNoreplace)
    obtain ⟨nonnull, aligned, bound, fresh⟩ := lawful.resolve_left mapped
    refine ⟨nonnull, aligned, bound, ?_⟩
    intro r member
    exact fresh r (by simpa using member)

section
variable {os : Platform} {m : Machine} {pre post : List Block} {b : Block}

@[simp] theorem ensures_mapPages {addr length flags : Nat} {Q : Nat → Machine → Prop} :
    Ensures (mapPages os addr length flags) m Q ↔
      Q (os.mmap m.calls (mapPagesCall addr length flags))
        { m with
          calls := m.calls ++ [⟨mapPagesCall addr length flags,
            os.mmap m.calls (mapPagesCall addr length flags)⟩]
          memory := if os.mmap m.calls (mapPagesCall addr length flags) = mapFailed then m.memory
            else fillZero m.memory (os.mmap m.calls (mapPagesCall addr length flags)) length } :=
  ensures_of_returns rfl

/-- A region was obtained at an address: its header stands there, and nothing outside the
region was written. -/
structure Obtained (m : Machine) (region size : Nat) (m' : Machine) : Prop where
  outside : ∀ x, x < region ∨ region + size ≤ x → m'.memory x = m.memory x
  placed : header m'.memory region = ⟨null, ⟨size - contentsOffset⟩, true⟩
  accesses : ∃ a : Access, a.kind = .init ∧ m'.accesses = m.accesses ++ [a]

theorem obtained_of_init {m' : Machine} {region size : Nat} {a : Access}
    {padding : Fin 7 → UInt8} (large : regionMinSize ≤ size) (fits : size < 2 ^ 64)
    (init : a.kind = .init) (grown : m'.accesses = m.accesses ++ [a])
    (memory : m'.memory = writeBytes (fillZero m.memory region size) region
      (headerBytes ⟨null, capacityFromSize ⟨size⟩, true⟩ padding)) :
    Obtained m region size m' := by
  simp only [regionMinSize] at large
  have capacity : capacityFromSize ⟨size⟩ = ⟨size - contentsOffset⟩ := by
    simp only [capacityFromSize, wrapSub, contentsOffset, BlockCapacity.mk.injEq]
    omega
  refine ⟨?_, ?_, a, init, grown⟩
  · intro x outside
    rw [memory, writeBytes_outside (by rw [headerBytes_length]; omega), fillZero_outside outside]
  · rw [memory, capacity]
    apply header_writeBytes_headerBytes (by simp [null])
    simp only [contentsOffset]
    omega

theorem allocRegion_requests {hint query region : Nat} {events : List MmapEvent}
    (asked : requestRegion (os.since m.calls) hint (regionSize os.pageSize query) =
      (region, events)) :
    Ensures (allocRegion os hint query) m fun r m' => m'.calls = m.calls ++ events ∧
      ((region = mapFailed ∧ r = regionInvalid ∧ m'.memory = m.memory ∧
          m'.accesses = m.accesses) ∨
        (region ≠ mapFailed ∧ r = ⟨region, regionSize os.pageSize query, region == hint⟩ ∧
          Obtained m region (regionSize os.pageSize query) m')) := by
  obtain ⟨large, fits⟩ := regionSize_bounds os.pageSize query
  have sized : regionActualSize os.pageSize (sizeFromCapacity ⟨query⟩).bytes =
      regionSize os.pageSize query := rfl
  unfold requestRegion at asked
  simp only [Platform.since, List.append_nil] at asked
  simp only [allocRegion, sized, ensures_bind, ensures_mapPages]
  by_cases first : os.mmap m.calls
      (mapPagesCall hint (regionSize os.pageSize query) mapFixedNoreplace) = mapFailed
  · simp only [first, if_true] at asked ⊢
    obtain ⟨rfl, rfl⟩ := Prod.mk.inj asked
    rw [ensures_bind, ensures_mapPages]
    by_cases second : os.mmap (m.calls ++ [⟨mapPagesCall hint (regionSize os.pageSize query)
        mapFixedNoreplace, mapFailed⟩])
        (mapPagesCall hint (regionSize os.pageSize query) 0) = mapFailed
    · simp only [second, if_true, ensures_pure]
      exact ⟨by simp, .inl ⟨trivial, trivial, trivial, trivial⟩⟩
    · simp only [second, if_false, ensures_bind, ensures_blockInit, ensures_pure]
      refine ⟨by simp, .inr ⟨second, trivial, ?_⟩⟩
      exact obtained_of_init large fits (a := ⟨.init, _, _⟩) rfl rfl rfl
  · simp only [first, if_false] at asked ⊢
    obtain ⟨rfl, rfl⟩ := Prod.mk.inj asked
    simp only [first, if_false, ensures_bind, ensures_blockInit, ensures_pure]
    refine ⟨by simp, .inr ⟨first, trivial, ?_⟩⟩
    exact obtained_of_init large fits (a := ⟨.init, _, _⟩) rfl rfl rfl

theorem Holds.frame {memory memory' : Memory} {blocks : List Block} (holds : Holds memory blocks)
    (same : ∀ x ∈ extents blocks, memory' x = memory x) : Holds memory' blocks := by
  refine ⟨holds.wellFormed, holds.linked.frame ?_⟩
  intro c member x lower upper
  refine same x (mem_extents.mpr ⟨c, member, lower, ?_⟩)
  simp only [Block.stop, Block.size]
  omega

theorem Kept.inside {blocks : List Block} {x : Nat} (kept : Kept blocks x) :
    x ∈ extents blocks := by
  obtain ⟨c, member, lower, upper⟩ := kept
  exact mem_extents.mpr ⟨c, (mem_takens.mp member).1, (Nat.le_add_right _ _).trans lower, upper⟩

theorem Evolves.of_outside {m' : Machine} {blocks : List Block} (holds : Holds m.memory blocks)
    (same : ∀ x ∈ MemoryAllocator.extents blocks, m'.memory x = m.memory x)
    (accesses : ∃ new, m'.accesses = m.accesses ++ new ∧ ∀ a ∈ new, a.kind = .init) :
    Evolves m blocks m' blocks := by
  obtain ⟨new, grown, init⟩ := accesses
  refine ⟨holds.frame same, rfl, List.Subset.refl _, List.Subset.refl _, ?_, new, grown, ?_⟩
  · intro x kept
    exact same x kept.inside
  · intro a member touched
    exact absurd (init a member) touched

theorem WellFormed.append_fresh {blocks : List Block} {fresh : Block} (wf : WellFormed blocks)
    (apart : (extents blocks).Disjoint fresh.span.cells) (positive : 0 < fresh.addr)
    (bounded : fresh.stop < 2 ^ 64) (large : blockMinCapacity ≤ fresh.capacity) :
    WellFormed (blocks ++ [fresh]) := by
  refine ⟨?_, ?_⟩
  · rw [extents_append, extents_cons, extents_nil, List.append_nil]
    exact wf.room.append_span positive bounded apart
  · intro c member
    rcases List.mem_append.mp member with front | back
    · exact wf.minCapacity c front
    · obtain rfl := List.mem_singleton.mp back
      exact large

theorem Kept.outside_next (wf : WellFormed (pre ++ b :: post)) {x : Nat}
    (kept : Kept (pre ++ b :: post) x) : x < b.addr ∨ b.addr + 8 ≤ x := by
  obtain ⟨c, member, lower, upper⟩ := kept
  by_cases same : c = b
  · subst same
    exact .inr lower
  · have elsewhere : c ∈ pre ++ post := by
      have inside := (mem_takens.mp member).1
      simp only [List.mem_append, List.mem_cons, same, false_or] at inside
      exact List.mem_append.mpr inside
    have sized : b.stop = b.addr + (17 + b.capacity) := rfl
    rcases wf.apart c elsewhere with before | after
    · exact .inl (upper.trans_le before)
    · exact .inr (by omega)

/-- The last block is pointed at blocks that already stand in memory, or at none. -/
theorem storeNext_continues (later : List Block) (holds : Holds m.memory (pre ++ [b]))
    (wf : WellFormed (pre ++ b :: later)) (linked : Linked m.memory later null) :
    Ensures (storeNext b.addr (headAddr later null)) m fun _ m' =>
      m'.calls = m.calls ∧ Evolves m (pre ++ [b]) m' (pre ++ b :: later) := by
  have longer : pre ++ b :: later = (pre ++ [b]) ++ later := by simp
  have subset : extents (pre ++ [b]) ⊆ extents (pre ++ b :: later) := by
    rw [longer, extents_append (pre ++ [b])]
    exact List.subset_append_left _ _
  simp only [ensures_storeNext, touched_calls, true_and]
  refine ⟨holds.relink wf linked, ?_, subset, ?_, ?_, [⟨.write, b.addr, m.memory⟩], rfl, ?_⟩
  · exact headAddr_replace rfl pre [] later null
  · rw [longer, takens_append (pre ++ [b])]
    exact List.subset_append_left _ _
  · intro x kept
    exact writeWord_outside (kept.outside_next holds.wellFormed)
  · intro a member _
    obtain rfl := List.mem_singleton.mp member
    exact ⟨_, holds, rfl, subset, b, by simp, rfl⟩

/-- The list after a request for a new region was answered. -/
def grownBy (before : List Block) (last fresh : Block) : List Block :=
  (growth before last fresh).1 ++ [(growth before last fresh).2]

theorem growth_joined {before : List Block} {last fresh : Block}
    (fusible : last.fusible fresh = true) :
    growth before last fresh = (before, last.fuse fresh) := if_pos fusible

theorem growth_apart {before : List Block} {last fresh : Block}
    (apart : last.fusible fresh = false) :
    growth before last fresh = (before ++ [last], fresh) := if_neg (by simp [apart])

theorem freshBlock_stop (region pageSize query : Nat) :
    (freshBlock region (regionSize pageSize query)).stop = region + regionSize pageSize query :=
  congrArg (region + ·) (freshBlock_size region pageSize query)

theorem append_region {blocks : List Block} {hint query region : Nat} {events : List MmapEvent}
    (wf : WellFormed blocks) (tiled : extents blocks = footprint (regions m.calls))
    (asked : requestRegion (os.since m.calls) hint (regionSize os.pageSize query) =
      (region, events)) (mapped : region ≠ mapFailed) :
    WellFormed (blocks ++ [freshBlock region (regionSize os.pageSize query)]) := by
  obtain ⟨nonnull, _, bound, apart⟩ := requestRegion_lawful asked mapped
  refine wf.append_fresh ?_ (Nat.pos_of_ne_zero nonnull) ?_ (freshBlock_capacity_ge _ _ _)
  · rw [tiled]
    intro x old new
    obtain ⟨r, among, inside⟩ := List.mem_flatMap.mp old
    have sized := freshBlock_size region os.pageSize query
    apply Span.disjoint_of_apart (apart r among) inside
    rwa [Block.span, sized] at new
  · rwa [freshBlock_stop]

theorem Obtained.outside_extents {m' : Machine} {blocks : List Block} {region query : Nat}
    (obtained : Obtained m region (regionSize os.pageSize query) m')
    (longer : WellFormed (blocks ++ [freshBlock region (regionSize os.pageSize query)])) :
    ∀ x ∈ extents blocks, m'.memory x = m.memory x := by
  intro x inside
  apply obtained.outside x
  have nodup := longer.room.nodup
  rw [extents_append] at nodup
  have elsewhere := not_mem_extents_singleton.mp ((List.nodup_append'.mp nodup).2.2 inside)
  rwa [freshBlock_stop] at elsewhere

theorem Obtained.evolves {m' : Machine} {blocks : List Block} {region query : Nat}
    (obtained : Obtained m region (regionSize os.pageSize query) m') (holds : Holds m.memory blocks)
    (longer : WellFormed (blocks ++ [freshBlock region (regionSize os.pageSize query)])) :
    Evolves m blocks m' blocks := by
  obtain ⟨a, init, grown⟩ := obtained.accesses
  exact .of_outside holds (obtained.outside_extents longer) ⟨[a], grown, by simpa using init⟩

theorem Obtained.linked {m' : Machine} {region size : Nat}
    (obtained : Obtained m region size m') : Linked m'.memory [freshBlock region size] null :=
  ⟨obtained.placed, trivial⟩

theorem storeNext_appends {m' : Machine} {before : List Block} {last fresh : Block}
    (current : Evolves m (before ++ [last]) m' (before ++ [last]))
    (longer : WellFormed (before ++ last :: [fresh])) (linked : Linked m'.memory [fresh] null) :
    Ensures (storeNext last.addr fresh.addr) m' fun _ m'' =>
      m''.calls = m'.calls ∧ Evolves m (before ++ [last]) m'' (before ++ [last, fresh]) :=
  (storeNext_continues [fresh] current.holds longer linked).mono
    fun _ _ ⟨calls, evolved⟩ => ⟨calls, current.trans evolved⟩

/-- A region requested at the end of the last block leaves the list as it was; its block stands
in memory, and there is room for it behind the list. -/
theorem allocRegion_prepares {before : List Block} {last : Block} {query region : Nat}
    {events : List MmapEvent} (holds : Holds m.memory (before ++ [last]))
    (tiled : extents (before ++ [last]) = footprint (regions m.calls))
    (asked : requestRegion (os.since m.calls) last.stop (regionSize os.pageSize query) =
      (region, events)) :
    Ensures (allocRegion os last.stop query) (m.touched .read last.addr) fun r m' =>
      m'.calls = m.calls ++ events ∧ Evolves m (before ++ [last]) m' (before ++ [last]) ∧
      ((region = mapFailed ∧ r = regionInvalid) ∨
        (region ≠ mapFailed ∧ r = ⟨region, regionSize os.pageSize query, region == last.stop⟩ ∧
          WellFormed (before ++ last :: [freshBlock region (regionSize os.pageSize query)]) ∧
          Linked m'.memory [freshBlock region (regionSize os.pageSize query)] null)) := by
  have measured : Merges m (before ++ [last]) (m.touched .read last.addr) (before ++ [last]) :=
    .of_reads [last.addr] holds rfl rfl rfl (by simp)
  have read := measured.evolves
  refine (allocRegion_requests (m := m.touched .read last.addr) asked).mono ?_
  rintro r m' ⟨calls, ⟨failed, rfl, memory, accesses⟩ | ⟨mapped, rfl, obtained⟩⟩
  · have kept : Evolves (m.touched .read last.addr) (before ++ [last]) m' (before ++ [last]) :=
      .of_outside read.holds (fun x _ => congrFun memory x) ⟨[], by simp [accesses], by simp⟩
    exact ⟨calls, read.trans kept, .inl ⟨failed, rfl⟩⟩
  · have longer := append_region holds.wellFormed tiled asked mapped
    have evolves := read.trans (obtained.evolves read.holds longer)
    rw [List.append_assoc] at longer
    exact ⟨calls, evolves, .inr ⟨mapped, rfl, longer, obtained.linked⟩⟩

/-- The answer to a request for a region, once it stands behind the last block. -/
theorem growHeap_grows {before : List Block} {last : Block} {query region : Nat}
    {events : List MmapEvent} (holds : Holds m.memory (before ++ [last]))
    (tiled : extents (before ++ [last]) = footprint (regions m.calls))
    (asked : requestRegion (os.since m.calls) last.stop (regionSize os.pageSize query) =
      (region, events)) :
    Ensures (growHeap os last.addr query) m fun g m' => m'.calls = m.calls ++ events ∧
      ((region = mapFailed ∧ g = null ∧ Evolves m (before ++ [last]) m' (before ++ [last])) ∨
        (region ≠ mapFailed ∧
          g = (growth before last (freshBlock region (regionSize os.pageSize query))).2.addr ∧
          Evolves m (before ++ [last]) m'
            (grownBy before last (freshBlock region (regionSize os.pageSize query))))) := by
  have wf := holds.wellFormed
  have lastHeader := holds.header_at
  have lastNull := wf.nonnull (b := last) (by simp)
  have after := contents_add_capacity (wf.stop_lt (b := last) (by simp))
  simp only [growHeap, if_neg lastNull, blockAfter, ensures_bind, ensures_loadCapacity,
    ensures_pure, lastHeader, after]
  refine (allocRegion_prepares holds tiled asked).mono ?_
  rintro r m₁ ⟨calls, evolves, ⟨failed, rfl⟩ | ⟨mapped, rfl, longer, linked⟩⟩
  · simp only [regionIsInvalid, regionInvalid, beq_self_eq_true, Bool.true_or, if_true,
      ensures_bind, ensures_pure]
    refine (storeNext_continues [] evolves.holds wf trivial).mono ?_
    rintro _ m' ⟨same, stored⟩
    exact ⟨same.trans calls, .inl ⟨failed, trivial, evolves.trans stored⟩⟩
  · have regionAddr : (freshBlock region (regionSize os.pageSize query)).addr = region := rfl
    have freshFree : (freshBlock region (regionSize os.pageSize query)).isFree = true := rfl
    generalize freshBlock region (regionSize os.pageSize query) = fresh
      at longer linked regionAddr freshFree ⊢
    subst regionAddr
    have lastNow := evolves.holds.header_at
    have looked : Merges m₁ (before ++ [last]) (m₁.touched .read last.addr) (before ++ [last]) :=
      .of_reads [last.addr] evolves.holds rfl rfl rfl (by simp)
    have valid : (fresh.addr == null) = false := by
      simpa using (requestRegion_lawful asked mapped).1
    simp only [regionIsInvalid, valid, Bool.false_or]
    by_cases meets : fresh.addr = last.stop
    · have extends' : (fresh.addr == last.stop) = true := by simpa using meets
      simp only [extends', Bool.not_true, Bool.false_eq_true, if_false, ensures_bind, ensures_map,
        ensures_loadIsFree, lastNow]
      have stores := storeNext_appends (evolves.trans looked.evolves) longer linked
      cases lastFree : last.isFree with
      | true =>
          have fusible : last.fusible fresh = true :=
            Block.fusible_iff.mpr ⟨lastFree, freshFree, meets⟩
          rw [grownBy, growth_joined fusible]
          simp only [Bool.not_true, Bool.false_eq_true, if_false, ensures_bind]
          refine stores.mono ?_
          rintro _ m₂ ⟨same, stored⟩
          refine (tryMergeWithNext_fuses stored.holds fusible).mono ?_
          rintro merged m' ⟨rfl, merges⟩
          simp only [if_true, ensures_pure]
          exact ⟨merges.calls.trans (same.trans calls),
            .inr ⟨mapped, rfl, stored.trans merges.evolves⟩⟩
      | false =>
          rw [grownBy, growth_apart (Block.taken_not_fusible_left lastFree fresh)]
          simp only [Bool.not_false, if_true, ensures_bind, ensures_pure]
          refine stores.mono ?_
          rintro _ m' ⟨same, stored⟩
          exact ⟨same.trans calls, .inr ⟨mapped, trivial, by simpa using stored⟩⟩
    · have beyond : (fresh.addr == last.stop) = false := by simpa using meets
      have apart : last.fusible fresh = false := by
        simp only [Block.fusible, beyond, Bool.and_false]
      rw [grownBy, growth_apart apart]
      simp only [beyond, Bool.not_false, if_true, ensures_bind, ensures_pure]
      refine (storeNext_appends evolves longer linked).mono ?_
      rintro _ m' ⟨same, stored⟩
      exact ⟨same.trans calls, .inr ⟨mapped, trivial, by simpa using stored⟩⟩

end
end MemoryAllocator
