import MemoryAllocator.EagerHeap
import MemoryAllocator.GrowHeap

/-! Searching again. Growth changes nothing in front of the block it makes available, so the
second search may begin there; and a block that was served and freed again is found again. -/
namespace MemoryAllocator
open Foundation

@[simp] theorem report_prepend (front : List Block) (r : SearchResult Block) :
    report (r.prepend front) = report r := by
  cases r <;> rfl

theorem carved_prepend (query : Nat) (front : List Block) (r : SearchResult Block) :
    carved query (r.prepend front) = front ++ carved query r := by
  cases r <;> exact List.append_assoc _ _ _

section
variable {before front after : List Block} {last fresh block g : Block} {query : Nat}

/-- Growth leaves nothing to join: the region was joined if it could be. -/
theorem growth_separated (separated : Block.fusion.Separated (before ++ [last]))
    (grew : growth before last fresh = (front, block)) :
    Block.fusion.Separated (front ++ [block]) := by
  obtain ⟨ahead, _, border⟩ := List.isChain_append.mp separated
  cases fusible : last.fusible fresh with
  | true =>
      rw [growth_joined fusible] at grew
      obtain ⟨rfl, rfl⟩ := Prod.mk.inj grew
      refine List.isChain_append.mpr ⟨ahead, List.isChain_singleton _, ?_⟩
      intro x ends y head
      obtain rfl := Option.some.inj head
      exact (Block.fusion.fusible_fuse_right x fusible).trans (border x ends last rfl)
  | false =>
      rw [growth_apart fusible] at grew
      obtain ⟨rfl, rfl⟩ := Prod.mk.inj grew
      refine List.isChain_append.mpr ⟨separated, List.isChain_singleton _, ?_⟩
      intro x ends y head
      rw [List.getLast?_concat] at ends
      obtain rfl := Option.some.inj ends
      obtain rfl := Option.some.inj head
      exact fusible

theorem growth_bad (bad : ∀ b ∈ before ++ [last], b.fits query = false)
    (grew : growth before last fresh = (front, block)) : ∀ b ∈ front, b.fits query = false := by
  cases fusible : last.fusible fresh with
  | true =>
      rw [growth_joined fusible] at grew
      obtain ⟨rfl, rfl⟩ := Prod.mk.inj grew
      exact fun b member => bad b (List.mem_append_left _ member)
  | false =>
      rw [growth_apart fusible] at grew
      obtain ⟨rfl, rfl⟩ := Prod.mk.inj grew
      exact bad

theorem exhausted_separated {blocks : List Block}
    (searched : Searched query blocks (.exhausted before last)) :
    Block.fusion.Separated (before ++ [last]) := by
  have settled : Block.fusion.coalesce blocks = before ++ [last] := searched.fused
  rw [← settled]
  exact Fusion.coalesce_separated blocks

end

theorem Heap.serves_from {m : Machine} {pre post : List Block} {b : Block} {query : Nat}
    (os : Platform) (heap : Heap m (pre ++ b :: post)) (large : blockMinCapacity ≤ query) :
    ∃ m', tryMemallocExisting os query b.addr m =
        some (report (Block.fusion.search (Block.fits query) b post), m') ∧
      Chain m'.memory heapStart
        (pre ++ carved query (Block.fusion.search (Block.fits query) b post)) := by
  obtain ⟨_, m', returned, rfl, _, evolves⟩ :=
    tryMemallocExisting_serves os heap.holds large heap.roomy
  exact ⟨m', returned, evolves.holds.chain (evolves.head.trans heap.start)⟩

/-- After growth the search from the block that growth returned, as `memalloc` makes it, reports
what a search of the whole heap reports and leaves the list it leaves. -/
theorem retry_agrees {os : Platform} {s : System} (reachable : Reachable os s) {query addr g : Nat}
    {m m₁ : Machine} (failed : tryMemallocExisting os (max query blockMinCapacity) heapStart
      s.machine = some (⟨.reachedEndNotFound, addr⟩, m))
    (grew : growHeap os addr (max query blockMinCapacity) m = some (g, m₁)) (nonnull : g ≠ null) :
    ∃ r m₂ m₃ blocks,
      tryMemallocExisting os (max query blockMinCapacity) g m₁ = some (r, m₂) ∧
      tryMemallocExisting os (max query blockMinCapacity) heapStart m₁ = some (r, m₃) ∧
      Chain m₂.memory heapStart blocks ∧ Chain m₃.memory heapStart blocks := by
  obtain ⟨blocks, invariant⟩ := reachable.invariant
  have large : blockMinCapacity ≤ max query blockMinCapacity := le_max_right _ _
  generalize max query blockMinCapacity = size at failed grew large ⊢
  obtain ⟨before, last, searched, rfl, _, heap⟩ := invariant.heap.search_fails large failed
  cases asked : requestRegion (os.since m.calls) last.stop (regionSize os.pageSize size) with
  | mk region events =>
      obtain ⟨_, ⟨_, none, _⟩ | ⟨_, front, block, grown, rfl, heap₁⟩⟩ :=
        (heap.grows asked).of_returns grew
      · exact absurd none nonnull
      · have separated := growth_separated (exhausted_separated searched) grown
        have bad := growth_bad searched.decides grown
        obtain ⟨m₂, short, chain⟩ := heap₁.serves_from os large
        -- the whole heap is the front, which is passed over, and the block
        obtain ⟨b, rest, split, start, whole⟩ := heap₁.head
        have skipped := Fusion.search_skip (F := Block.fusion) split.symm separated bad
        obtain ⟨m₃, long, chain'⟩ := whole.serves_from os large
        rw [start, skipped, report_prepend] at long
        rw [skipped, carved_prepend] at chain'
        exact ⟨_, m₂, m₃, _, short, long, chain, chain'⟩

/-- The heap grows by a region that the last block joins. -/
theorem retry_agrees_of_joined : ∃ s m m₁ m₂ m₃ r blocks,
    session granting 8175 [.malloc 8000] = some s ∧
    tryMemallocExisting granting 20000 heapStart s.machine =
      some (⟨.reachedEndNotFound, 67379025⟩, m) ∧
    growHeap granting 67379025 20000 m = some (67379025, m₁) ∧
    tryMemallocExisting granting 20000 67379025 m₁ = some (r, m₂) ∧
    tryMemallocExisting granting 20000 heapStart m₁ = some (r, m₃) ∧
    Chain m₂.memory heapStart blocks ∧ Chain m₃.memory heapStart blocks := by
  have searched : ((session granting 8175 [.malloc 8000]).bind fun s =>
      (tryMemallocExisting granting 20000 heapStart s.machine).bind fun r =>
        if r.1 = ⟨.reachedEndNotFound, 67379025⟩ then
          (growHeap granting 67379025 20000 r.2).map fun g => g.1
        else none) = some 67379025 := by
    decide +kernel
  obtain ⟨s, started, rest⟩ := Option.bind_eq_some_iff.mp searched
  obtain ⟨⟨r, m⟩, failed, rest⟩ := Option.bind_eq_some_iff.mp rest
  simp only at rest
  split at rest
  · rename_i same
    subst same
    obtain ⟨⟨g, m₁⟩, grew, named⟩ := Option.map_eq_some_iff.mp rest
    obtain rfl : g = 67379025 := named
    have reachable := session_reachable (by decide) (by decide) started
    have failed' : tryMemallocExisting granting (max 20000 blockMinCapacity) heapStart s.machine =
        some (⟨.reachedEndNotFound, 67379025⟩, m) := failed
    obtain ⟨r, m₂, m₃, blocks, short, long, chain, chain'⟩ :=
      retry_agrees reachable failed' grew (by decide)
    exact ⟨s, m, m₁, m₂, m₃, r, blocks, started, failed, grew, short, long, chain, chain'⟩
  · cases rest

/-- A block that serves a request at once: what stands in front is joined and too small, and
the block joins nothing behind it. -/
structure Ready (query : Nat) (front : List Block) (g : Block) (after : List Block) : Prop where
  separated : Block.fusion.Separated (front ++ [g])
  border : ∀ c ∈ after.head?, g.fusible c = false
  bad : ∀ b ∈ front, b.fits query = false
  good : g.fits query = true

section
variable {query : Nat} {front after blocks : List Block} {g : Block}

theorem Ready.of_searched (searched : Searched query blocks (.found front g after)) :
    Ready query front g after := by
  have settled : Block.fusion.coalesce blocks = front ++ g :: Block.fusion.coalesce after :=
    searched.fused
  have separated := Fusion.coalesce_separated (F := Block.fusion) blocks
  rw [settled, List.append_cons] at separated
  constructor
  · exact List.IsChain.left_of_append separated
  · exact found_border searched
  · exact searched.decides.2
  · exact searched.decides.1

theorem Outcome.ready {pageSize : Nat} {answer : Answers} {r : Reply}
    (outcome : Outcome pageSize answer query blocks r)
    (serves : ∀ {before last region events}, Searched query blocks (.exhausted before last) →
      requestRegion answer last.stop (regionSize pageSize query) = (region, events) →
      region ≠ mapFailed → query ≤ (freshBlock region (regionSize pageSize query)).capacity)
    (given : r.pointer ≠ null) :
    ∃ front g after, Ready query front g after ∧ r.pointer = g.contents ∧
      r.blocks = front ++ (g.carve query ++ after) := by
  cases outcome with
  | found searched => exact ⟨_, _, _, .of_searched searched, rfl, rfl⟩
  | refused => exact absurd rfl given
  | @grown before front last block region events searched asked mapped grew =>
      have fits := growth_serves (serves searched asked mapped) grew
      have free := (growth_takens rfl grew).2
      refine ⟨front, block, [], ?_, rfl, ?_⟩
      · constructor
        · exact growth_separated (exhausted_separated searched) grew
        · simp
        · exact growth_bad searched.decides grew
        · exact Block.fits_iff.mpr ⟨free, fits⟩
      · rw [serveLast, if_pos fits, List.append_nil]

namespace Ready

theorem search (ready : Ready query front g after) {b : Block} {rest : List Block}
    (split : b :: rest = front ++ g :: after) :
    Block.fusion.search (Block.fits query) b rest = .found front g after := by
  have here : Block.fusion.search (Block.fits query) g after = .found [] g after := by
    cases after with
    | nil => simp [Fusion.search, ready.good]
    | cons c rest =>
        have apart : Block.fusion.fusible g c = false := ready.border c rfl
        simp [Fusion.search, apart, ready.good]
  rw [Fusion.search_skip split ready.separated ready.bad, here, SearchResult.prepend,
    List.append_nil]

theorem malloc {request : Nat} (ready : Ready (max request blockMinCapacity) front g after)
    (pageSize : Nat) (answer : Answers) :
    ListAllocator.malloc pageSize answer request (front ++ g :: after) =
      ⟨g.contents, front ++ (g.carve (max request blockMinCapacity) ++ after), []⟩ := by
  obtain ⟨b, rest, split⟩ := List.exists_cons_of_ne_nil
    (List.append_ne_nil_of_right_ne_nil front (List.cons_ne_nil g after))
  rw [split]
  simp only [ListAllocator.malloc, ready.search split.symm]

theorem absorbs (ready : Ready query front g after) :
    Block.fusion.absorb (g.served query).release
      ((if g.Splittable query then [g.rest query] else []) ++ after) = (g, after) := by
  obtain ⟨free, _⟩ := Block.fits_iff.mp ready.good
  by_cases splittable : g.Splittable query
  · have touching : (g.rest query).addr = (g.front query).release.stop := by
      simp only [Block.rest, Block.contents, Block.stop, Block.size, Block.release, Block.front,
        Nat.add_assoc]
    have joins : Block.fusion.fusible (g.front query).release (g.rest query) = true :=
      Block.fusible_iff.mpr ⟨rfl, rfl, touching⟩
    have whole : (g.front query).release.fuse (g.rest query) = g := by
      simp only [Block.Splittable, contentsOffset, blockMinCapacity] at splittable
      have capacity : query + (g.rest query).size = g.capacity := by
        simp only [Block.size, Block.rest, contentsOffset]
        omega
      simp only [Block.fuse, Block.release, Block.front, capacity, ← free]
    have absorbed : Block.fusion.absorb (g.front query).release ([g.rest query] ++ after) =
        ((g.front query).release.fuse (g.rest query), after) :=
      Fusion.absorb_chain (List.isChain_cons_cons.mpr ⟨joins, List.isChain_singleton _⟩)
        fun c head => (congrArg (fun b => b.fusible c) whole).trans (ready.border c head)
    rw [Block.served, if_pos splittable, if_pos splittable, absorbed]
    exact congrArg (fun b => (b, after)) whole
  · have same : g.take.release = g := by
      rw [Block.release, Block.take, ← free]
    have alone : Block.fusion.absorb g ([] ++ after) = (g, after) :=
      Fusion.absorb_chain (List.isChain_singleton _) ready.border
    rw [Block.served, if_neg splittable, if_neg splittable, same, alone]

theorem free (ready : Ready query front g after)
    (wf : WellFormed (front ++ (g.carve query ++ after))) :
    ListAllocator.free g.contents (front ++ (g.carve query ++ after)) = front ++ g :: after := by
  rw [carve_eq] at wf ⊢
  rw [← served_contents query g]
  rw [List.cons_append] at wf ⊢
  rw [free_at wf, ready.absorbs]

theorem pair {os : Platform} {s : System} {request : Nat}
    (ready : Ready (max request blockMinCapacity) front g after)
    (invariant : Invariant os s (front ++ g :: after)) (bound : request < 2 ^ 64)
    (admissible : Admissible os.pageSize request) :
    ∃ s₁ s₂, AdmissibleStep os s (.malloc request g.contents) s₁ ∧
      AdmissibleStep os s₁ (.free g.contents) s₂ ∧ s₁.machine.calls = s.machine.calls ∧
      s₂.machine.calls = s.machine.calls ∧ Invariant os s₂ (front ++ g :: after) := by
  obtain ⟨pointer, m₁, returned⟩ := invariant.malloc_returns request
  have first : AdmissibleStep os s (.malloc request pointer)
      ⟨m₁, obtained s.live request pointer⟩ := ⟨admissible, .malloc bound returned⟩
  obtain ⟨rfl, calls, _, invariant₁⟩ := invariant.after_malloc first.safe
    (ready.malloc os.pageSize (os.since s.machine.calls))
  have given : (⟨g.contents, request⟩ : Allocation) ∈ obtained s.live request g.contents := by
    simp [obtained, g.contents_ne_null]
  obtain ⟨m₂, freed⟩ := invariant₁.free_returns given
  have second : AdmissibleStep os ⟨m₁, obtained s.live request g.contents⟩ (.free g.contents)
      ⟨m₂, dropped (obtained s.live request g.contents) g.contents⟩ :=
    ⟨trivial, .free given freed⟩
  obtain ⟨_, calls', _, invariant₂⟩ := invariant₁.after_free second.safe
  rw [ready.free invariant₁.heap.holds.wellFormed] at invariant₂
  have same : m₁.calls = s.machine.calls := calls.trans (List.append_nil _)
  exact ⟨_, _, first, second, same, calls'.trans same, invariant₂⟩

theorem pairs {os : Platform} {s : System} {request : Nat}
    (ready : Ready (max request blockMinCapacity) front g after)
    (invariant : Invariant os s (front ++ g :: after)) (bound : request < 2 ^ 64)
    (admissible : Admissible os.pageSize request) (n : Nat) :
    ∃ s', Run (AdmissibleStep os) s
        (List.replicate n [Action.malloc request g.contents, .free g.contents]).flatten s' ∧
      s'.machine.calls = s.machine.calls ∧ Invariant os s' (front ++ g :: after) := by
  induction n generalizing s with
  | zero => exact ⟨s, .nil s, rfl, invariant⟩
  | succ n ih =>
      obtain ⟨s₁, s₂, first, second, _, calls, invariant₂⟩ := ready.pair invariant bound admissible
      obtain ⟨s', run, same, invariant'⟩ := ih invariant₂
      refine ⟨s', ?_, same.trans calls, invariant'⟩
      rw [List.replicate_succ, List.flatten_cons]
      exact .cons first (.cons second run)

end Ready
end

theorem Invariant.served_and_freed {os : Platform} {s s₁ s₂ : System} {blocks : List Block}
    {query pointer : Nat} (invariant : Invariant os s blocks)
    (asked : SafeStep os s (.malloc query pointer) s₁) (freed : SafeStep os s₁ (.free pointer) s₂)
    (silent : s₁.machine.calls = s.machine.calls) :
    ∃ r m left, findGoodOrLast os heapStart (max query blockMinCapacity) s.machine = some (r, m) ∧
      Chain m.memory heapStart left ∧ Chain s₂.machine.memory heapStart left := by
  obtain ⟨b, rest, rfl, start, whole⟩ := invariant.heap.head
  have searches : Ensures (findGoodOrLast os b.addr (max query blockMinCapacity)) s.machine _ :=
    findGoodOrLast_searches whole.holds
  obtain ⟨r, m, found, rfl, merges⟩ := searches
  have chain := merges.holds.chain ((headAddr_fuses merges.fuses null).trans start)
  rw [start] at found
  refine ⟨_, m, _, found, chain, ?_⟩
  have spec := Fusion.search_spec (F := Block.fusion)
    (Block.fits (max query blockMinCapacity)) b rest
  generalize replied : ListAllocator.malloc os.pageSize (os.since s.machine.calls) query
    (b :: rest) = reply
  obtain ⟨rfl, calls, _, invariant₁⟩ := invariant.after_malloc asked replied
  have none : reply.events = [] :=
    List.append_cancel_left ((calls.symm.trans silent).trans (List.append_nil _).symm)
  obtain ⟨_, _, _, invariant₂⟩ := invariant₁.after_free freed
  cases result : Block.fusion.search (Block.fits (max query blockMinCapacity)) b rest with
  | exhausted before last =>
      have grown := malloc_outcome os.pageSize (os.since s.machine.calls) query
        (List.cons_ne_nil b rest)
      rw [replied] at grown
      obtain ⟨_, _, _, searched, _⟩ := grown.found_of_no_events none
      rw [result] at spec
      exact absurd searched.firstFit_found (by rw [spec.firstFit_exhausted]; simp)
  | found front g after =>
      rw [result] at spec
      simp only [ListAllocator.malloc, result] at replied
      subst replied
      rw [(Ready.of_searched spec).free invariant₁.heap.holds.wellFormed] at invariant₂
      exact invariant₂.heap.chain

/-- `_free` undoes `_malloc`: up to the joining that the search does anyway, the list is as it
was, and the same request gets the same pointer again, without a call of `mmap`, as often as it
is made and undone. -/
theorem free_undoes_malloc {os : Platform} {s s₁ : System} (reachable : Reachable os s)
    {query pointer : Nat} (asked : AdmissibleStep os s (.malloc query pointer) s₁)
    (given : pointer ≠ null) :
    (∃ s₂, AdmissibleStep os s₁ (.free pointer) s₂) ∧
    ∀ s₂, AdmissibleStep os s₁ (.free pointer) s₂ →
      (s₁.machine.calls = s.machine.calls → ∃ r m blocks,
        findGoodOrLast os heapStart (max query blockMinCapacity) s.machine = some (r, m) ∧
          Chain m.memory heapStart blocks ∧ Chain s₂.machine.memory heapStart blocks) ∧
      ∀ n, ∃ s', Run (AdmissibleStep os) s₂
          (List.replicate n [Action.malloc query pointer, .free pointer]).flatten s' ∧
        s'.machine.calls = s₂.machine.calls ∧
        ∃ m', malloc os query s'.machine = some (pointer, m') ∧ m'.calls = s₂.machine.calls := by
  obtain ⟨blocks, invariant⟩ := reachable.invariant
  obtain ⟨admissible, step⟩ := id asked
  have bound : query < 2 ^ 64 := by
    cases step with
    | malloc bound _ => exact bound
  have outcome := malloc_outcome os.pageSize (os.since s.machine.calls) query
    invariant.heap.nonempty
  obtain ⟨replied, _, live, invariant₁⟩ := invariant.after_malloc asked.safe rfl
  constructor
  · have held : (⟨pointer, query⟩ : Allocation) ∈ s₁.live := by
      simp [live, obtained, given]
    obtain ⟨m₂, returned⟩ := invariant₁.free_returns held
    exact ⟨_, trivial, .free held returned⟩
  · intro s₂ freed
    refine ⟨invariant.served_and_freed asked.safe freed.safe, fun n => ?_⟩
    obtain ⟨_, _, _, invariant₂⟩ := invariant₁.after_free freed.safe
    rw [replied] at given
    obtain ⟨front, g, after, ready, same, left⟩ :=
      outcome.ready (invariant.serves asked.safe.1) given
    obtain rfl : pointer = g.contents := replied.trans same
    rw [left] at invariant₁
    rw [left, ready.free invariant₁.heap.holds.wellFormed] at invariant₂
    obtain ⟨s', run, calls, invariant'⟩ := ready.pairs invariant₂ bound admissible n
    obtain ⟨s'', _, again, _, calls', _⟩ := ready.pair invariant' bound admissible
    refine ⟨s', run, calls, ?_⟩
    obtain ⟨_, once⟩ := again
    cases once with
    | malloc _ returned => exact ⟨_, returned, calls'.trans calls⟩

/-- A free block of 100 bytes is split at 50, freed, and found again twice. -/
theorem free_undoes_malloc_of_split : ∃ s s₁ s₂ s₃,
    session granting 8175 [.malloc 100, .malloc 200, .free 67371025] = some s ∧
    AdmissibleStep granting s (.malloc 50 67371025) s₁ ∧
    AdmissibleStep granting s₁ (.free 67371025) s₂ ∧
    (∃ r m blocks, findGoodOrLast granting heapStart 50 s.machine = some (r, m) ∧
      Chain m.memory heapStart blocks ∧ Chain s₂.machine.memory heapStart blocks) ∧
    Run (AdmissibleStep granting) s₂ [.malloc 50 67371025, .free 67371025, .malloc 50 67371025,
      .free 67371025] s₃ ∧ s₃.machine.calls = s₂.machine.calls := by
  have served : ((session granting 8175 [.malloc 100, .malloc 200, .free 67371025]).bind fun s =>
      (perform granting s (.malloc 50)).map fun r =>
        (r.1, s.machine.calls.length, r.2.machine.calls.length)) =
      some (.malloc 50 67371025, 1, 1) := by
    decide +kernel
  obtain ⟨s, started, rest⟩ := Option.bind_eq_some_iff.mp served
  obtain ⟨⟨action, s₁⟩, first, counted⟩ := Option.map_eq_some_iff.mp rest
  simp only [Prod.mk.injEq] at counted
  obtain ⟨rfl, before, behind⟩ := counted
  have reachable := session_reachable (by decide) (by decide) started
  have asked := perform_step (by decide) first
  have silent : s₁.machine.calls = s.machine.calls := by
    obtain ⟨blocks, invariant⟩ := reachable.invariant
    obtain ⟨_, calls, _⟩ := invariant.after_malloc asked.safe rfl
    refine calls.trans ((congrArg _ (List.eq_nil_of_length_eq_zero ?_)).trans
      (List.append_nil _))
    have grown := congrArg List.length calls
    rw [List.length_append] at grown
    omega
  obtain ⟨⟨s₂, freed⟩, undo⟩ := free_undoes_malloc reachable asked (by decide)
  obtain ⟨undone, again⟩ := undo s₂ freed
  obtain ⟨s₃, run, calls, _⟩ := again 2
  exact ⟨s, s₁, s₂, s₃, started, asked, freed, undone silent, run, calls⟩

end MemoryAllocator
