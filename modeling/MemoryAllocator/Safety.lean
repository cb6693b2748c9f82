import MemoryAllocator.Ownership

/-! What every run keeps: exclusive ownership of the live ranges, the tiling of what has been
mapped, and the bytes of whoever is not concerned by a call. -/
namespace MemoryAllocator
open Foundation

def Block.headerSpan (b : Block) : Span := ⟨b.addr, contentsOffset⟩

section
variable {os : Platform} {s : System} {blocks : List Block}

theorem Block.Serves.within {a : Allocation} {b : Block} (serves : b.Serves a) :
    b.addr + contentsOffset = a.span.start ∧ a.span.stop ≤ b.stop := by
  obtain ⟨pointer, enough, _⟩ := serves
  refine ⟨pointer, ?_⟩
  simp only [Allocation.span, Span.stop, Block.stop, Block.size, ← pointer, Block.contents]
  omega

theorem block_apart (wf : WellFormed blocks) {b c : Block} (bIn : b ∈ blocks) (cIn : c ∈ blocks)
    (different : b ≠ c) : b.span.Apart c.span := by
  obtain ⟨pre, post, rfl⟩ := List.append_of_mem cIn
  rcases mem_around bIn with same | around
  · exact absurd same different
  · exact wf.apart b around

theorem apart_of_within {s t s' t' : Span} (apart : s.Apart t) (sFrom : s.start ≤ s'.start)
    (sTo : s'.stop ≤ s.stop) (tFrom : t.start ≤ t'.start) (tTo : t'.stop ≤ t.stop) :
    s'.Apart t' := by
  simp only [Span.Apart] at apart ⊢
  omega

namespace Invariant

theorem live_apart (invariant : Invariant os s blocks) {a a' : Allocation} (live : a ∈ s.live)
    (live' : a' ∈ s.live) (different : a.pointer ≠ a'.pointer) : a.span.Apart a'.span := by
  obtain ⟨b, taken, serves⟩ := invariant.owned.served a live
  obtain ⟨b', taken', serves'⟩ := invariant.owned.served a' live'
  obtain ⟨start, stop⟩ := serves.within
  obtain ⟨start', stop'⟩ := serves'.within
  have other : b ≠ b' := by
    rintro rfl
    exact different (serves.pointer.symm.trans serves'.pointer)
  have apart := block_apart invariant.heap.holds.wellFormed (mem_takens.mp taken).1
    (mem_takens.mp taken').1 other
  refine apart_of_within apart ?_ stop ?_ stop'
  · exact start ▸ Nat.le_add_right _ _
  · exact start' ▸ Nat.le_add_right _ _

theorem live_off_headers (invariant : Invariant os s blocks) {a : Allocation} (live : a ∈ s.live)
    {c : Block} (member : c ∈ blocks) : a.span.Apart c.headerSpan := by
  obtain ⟨b, taken, serves⟩ := invariant.owned.served a live
  obtain ⟨start, stop⟩ := serves.within
  by_cases same : c = b
  · subst same
    exact .inr start.le
  · have apart := block_apart invariant.heap.holds.wellFormed (mem_takens.mp taken).1 member
      (Ne.symm same)
    refine apart_of_within apart ?_ stop (le_refl _) ?_
    · exact start ▸ Nat.le_add_right _ _
    · simp only [Block.headerSpan, Span.stop, Block.span, Block.size]
      omega

theorem live_mapped (invariant : Invariant os s blocks) {a : Allocation} (live : a ∈ s.live) :
    a.span.cells ⊆ footprint (regions s.machine.calls) := by
  obtain ⟨b, taken, serves⟩ := invariant.owned.served a live
  obtain ⟨start, stop⟩ := serves.within
  intro x inside
  rw [← invariant.heap.tiled]
  simp only [Span.cells, mem_cells] at inside
  refine mem_extents.mpr ⟨b, (mem_takens.mp taken).1, ?_, lt_of_lt_of_le inside.2 stop⟩
  omega

/-- Calls of the allocator keep every byte of a live block behind its `next` field, and keep
the block where it is, but for the call that frees it. -/
theorem keeps_block (invariant : Invariant os s blocks) {s' : System} {action : Action}
    (step : SafeStep os s action s') (call : action.request ≠ none) {b : Block}
    (taken : b ∈ takens blocks) (other : action ≠ .free b.contents) :
    (∀ x, b.addr + 8 ≤ x → x < b.stop → s'.machine.memory x = s.machine.memory x) ∧
      ∃ blocks', Invariant os s' blocks' ∧ b ∈ takens blocks' := by
  obtain ⟨safe, step⟩ := step
  cases step with
  | malloc _ returned =>
      obtain ⟨rfl, _, evolves, invariant'⟩ := invariant.malloc_step safe rfl returned
      refine ⟨?_, _, invariant', evolves.takens taken⟩
      exact fun x lower upper => evolves.kept x ⟨b, taken, lower, upper⟩
  | @free m m' live a member returned =>
      obtain ⟨_, invariant'⟩ := invariant.free_step member returned
      obtain ⟨pre, c, post, rfl, cTaken, serves⟩ := invariant.block_of_live member
      have different : b ≠ c := by
        rintro rfl
        exact other (congrArg Action.free serves.pointer.symm)
      rw [← serves.pointer] at returned
      have merges := (free_absorbs os invariant.heap.holds).of_returns returned
      have fused : takens (ListAllocator.free a.pointer (pre ++ c :: post)) =
          takens (pre ++ c.release :: post) := serves.pointer ▸ takens_fuses merges.fuses
      obtain ⟨inside, bTaken⟩ := mem_takens.mp taken
      have around := (mem_around inside).resolve_left different
      have kept : b ∈ takens (pre ++ c.release :: post) :=
        mem_takens.mpr ⟨mem_of_around around, bTaken⟩
      refine ⟨?_, _, invariant', fused ▸ kept⟩
      intro x lower upper
      refine (merges.kept x ⟨b, kept, lower, upper⟩).trans ?_
      have apart := invariant.heap.holds.wellFormed.apart b around
      apply writeBytes_outside
      simp only [Block.stop, Block.size, contentsOffset] at apart upper
      simp only [List.length_singleton]
      omega
  | write => exact absurd rfl call

theorem keeps_taken (invariant : Invariant os s blocks) {s' : System} {action : Action}
    (step : SafeStep os s action s') {b : Block} (taken : b ∈ takens blocks)
    (other : action ≠ .free b.contents) :
    ∃ blocks', Invariant os s' blocks' ∧ b ∈ takens blocks' := by
  by_cases call : action.request = none
  · obtain ⟨_, step⟩ := step
    cases step with
    | malloc => cases call
    | free => cases call
    | write live lower upper => exact ⟨blocks, invariant.write_step live lower upper, taken⟩
  · exact (invariant.keeps_block step call taken other).2

theorem keeps_taken_along (invariant : Invariant os s blocks) {s' : System} {actions : List Action}
    (run : Run (AdmissibleStep os) s actions s') {b : Block} (taken : b ∈ takens blocks)
    (unfreed : .free b.contents ∉ actions) :
    ∃ blocks', Invariant os s' blocks' ∧ b ∈ takens blocks' := by
  have preserved : ∀ s action s', action ≠ .free b.contents →
      (∃ blocks, Invariant os s blocks ∧ b ∈ takens blocks) → AdmissibleStep os s action s' →
        ∃ blocks, Invariant os s' blocks ∧ b ∈ takens blocks := by
    rintro s action s' other ⟨blocks, invariant, taken⟩ step
    exact invariant.keeps_taken step.safe taken other
  have others : ∀ action ∈ actions, action ≠ .free b.contents := by
    rintro action among rfl
    exact unfreed among
  exact run.invariant_among preserved others ⟨blocks, invariant, taken⟩

theorem header_of_serves (invariant : Invariant os s blocks) {a : Allocation} {b : Block}
    (member : b ∈ blocks) (serves : b.Serves a) : blockGetHeader a.pointer = b.addr := by
  rw [← serves.pointer]
  exact blockGetHeader_contents invariant.heap.holds.wellFormed member

end Invariant

theorem header_kept {memory memory' : Memory} {block : Nat}
    (same : ∀ x, block + 8 ≤ x → x < block + contentsOffset → memory' x = memory x) :
    header memory' block =
      { header memory block with next := (header memory' block).next } := by
  simp only [contentsOffset] at same
  have capacity : readWord 8 memory' (block + 8) = readWord 8 memory (block + 8) :=
    readWord_congr fun x lower upper => same x lower (by omega)
  have flag : memory' (block + 16) = memory (block + 16) := same _ (by omega) (by omega)
  simp only [header, capacity, flag]

end

/-- At every point of a run the ranges of live allocations are disjoint, lie inside mapped
memory, and keep off the header of every block of the list. -/
theorem live_exclusive {os : Platform} {s : System} (reachable : Reachable os s) :
    s.live.Pairwise (fun a b => a.span.Apart b.span) ∧
      (∀ a ∈ s.live, a.span.cells ⊆ footprint (regions s.machine.calls)) ∧
      ∃ blocks, Chain s.machine.memory heapStart blocks ∧
        ∀ a ∈ s.live, ∀ b ∈ blocks, a.span.Apart b.headerSpan := by
  obtain ⟨blocks, invariant⟩ := reachable.invariant
  refine ⟨?_, fun a live => invariant.live_mapped live, blocks, invariant.heap.chain,
    fun a live b member => invariant.live_off_headers live member⟩
  have distinct := List.pairwise_map.mp invariant.owned.distinct
  exact distinct.imp_of_mem fun live live' other => invariant.live_apart live live' other

theorem live_exclusive_of_two : ∃ s, session granting 8175 [.malloc 100, .malloc 200] = some s ∧
    s.live.length = 2 ∧ s.live.Pairwise (fun a b => a.span.Apart b.span) := by
  have served :
      (session granting 8175 [.malloc 100, .malloc 200]).map (·.live.length) = some 2 := by
    decide +kernel
  obtain ⟨s, returned, two⟩ := Option.map_eq_some_iff.mp served
  have reachable := session_reachable (by decide) (by decide) returned
  exact ⟨s, returned, two, (live_exclusive reachable).1⟩

/-- At every point of a run the chain from `heapStart` ends, its blocks cover exactly the
mapped regions in mapping order, and none is smaller than 24 bytes. -/
theorem heap_tiled {os : Platform} {s : System} (reachable : Reachable os s) :
    ∃ blocks, Chain s.machine.memory heapStart blocks ∧ (blocks.map Block.addr).Nodup ∧
      extents blocks = footprint (regions s.machine.calls) ∧ (extents blocks).Nodup ∧
      blocks.getLast?.map Block.stop = (regions s.machine.calls).getLast?.map Span.stop ∧
      MinCapacity blocks := by
  obtain ⟨blocks, invariant⟩ := reachable.invariant
  have wf := invariant.heap.holds.wellFormed
  have tiled := invariant.heap.tiled
  refine ⟨blocks, invariant.heap.chain, wf.addr_nodup, tiled, wf.room.nodup, ?_, wf.minCapacity⟩
  rcases List.eq_nil_or_concat blocks with none | ⟨before, last, some⟩
  · exact absurd none invariant.heap.nonempty
  · rw [List.concat_eq_append] at some
    rw [some] at tiled ⊢
    rw [last_region tiled invariant.positive, List.getLast?_concat, Option.map_some]

theorem heap_tiled_of_growth : ∃ s,
    session granting 8175 [.malloc 8000, .malloc 20000, .free 67371025] = some s ∧
    (regions s.machine.calls).length = 2 ∧
    ∃ blocks, Chain s.machine.memory heapStart blocks ∧
      extents blocks = footprint (regions s.machine.calls) := by
  have grown : (session granting 8175 [.malloc 8000, .malloc 20000, .free 67371025]).map
      (fun s => (regions s.machine.calls).length) = some 2 := by
    decide +kernel
  obtain ⟨s, returned, two⟩ := Option.map_eq_some_iff.mp grown
  have reachable := session_reachable (by decide) (by decide) returned
  obtain ⟨blocks, chain, _, tiled, _⟩ := heap_tiled reachable
  exact ⟨s, returned, two, blocks, chain, tiled⟩

/-- A call leaves every byte of the contents of a live block as it was, unless it frees that
block, and changes nothing in its header but `next`. Clients write only the bytes they asked
for, at least 24; to fill the rest of an unsplit block loses no generality, since asking for its
whole capacity, writing, freeing it and asking again leads to the same heap. -/
theorem payload_untouched {os : Platform} {s s' : System} {action : Action} {a : Allocation}
    (reachable : Reachable os s) (step : AdmissibleStep os s action s')
    (call : action.request ≠ none) (live : a ∈ s.live) (other : action ≠ .free a.pointer) :
    ∃ blocks blocks' b, Chain s.machine.memory heapStart blocks ∧
      Chain s'.machine.memory heapStart blocks' ∧ b ∈ blocks ∧ b ∈ blocks' ∧
      b.contents = a.pointer ∧ b.isFree = false ∧
      (∀ x, b.contents ≤ x → x < b.contents + b.capacity →
        s'.machine.memory x = s.machine.memory x) ∧
      header s'.machine.memory b.addr =
        { header s.machine.memory b.addr with next := (header s'.machine.memory b.addr).next } := by
  obtain ⟨blocks, invariant⟩ := reachable.invariant
  obtain ⟨b, taken, serves⟩ := invariant.owned.served a live
  rw [← serves.pointer] at other
  obtain ⟨kept, blocks', invariant', taken'⟩ := invariant.keeps_block step.safe call taken other
  obtain ⟨inside, isTaken⟩ := mem_takens.mp taken
  refine ⟨blocks, blocks', b, invariant.heap.chain, invariant'.heap.chain, inside,
    (mem_takens.mp taken').1, serves.pointer, isTaken, ?_, ?_⟩
  · intro x lower upper
    simp only [Block.contents, contentsOffset] at lower upper
    apply kept x (by omega)
    simp only [Block.stop, Block.size, contentsOffset]
    omega
  · refine header_kept fun x lower upper => kept x lower ?_
    simp only [Block.stop, Block.size]
    omega

theorem payload_untouched_by_request : ∃ s s', session granting 8175 [.malloc 100] = some s ∧
    AdmissibleStep granting s (.malloc 200 67371142) s' ∧
    header s'.machine.memory heapStart = { header s.machine.memory heapStart with
      next := (header s'.machine.memory heapStart).next } := by
  have first : (session granting 8175 [.malloc 100]).map (·.live) = some [⟨67371025, 100⟩] := by
    decide +kernel
  have second : ((session granting 8175 [.malloc 100]).bind fun s =>
      perform granting s (.malloc 200)).map (·.1) = some (.malloc 200 67371142) := by
    decide +kernel
  obtain ⟨s, started, live⟩ := Option.map_eq_some_iff.mp first
  rw [started, Option.bind_some] at second
  obtain ⟨⟨action, s'⟩, performed, named⟩ := Option.map_eq_some_iff.mp second
  obtain rfl : action = .malloc 200 67371142 := named
  have step := perform_step (by decide) performed
  refine ⟨s, s', started, step, ?_⟩
  have reachable := session_reachable (by decide) (by decide) started
  obtain ⟨_, _, b, _, _, _, _, pointer, _, _, same⟩ := payload_untouched reachable step
    (a := ⟨67371025, 100⟩) (by simp [Action.request]) (by simp [live]) (by simp)
  have head : b.addr = heapStart := Nat.add_right_cancel (m := contentsOffset) pointer
  rwa [head] at same

/-- Taken blocks and live pointers correspond one to one, and from the call that returns a
pointer to the call that frees it the block keeps its place, its mark and its capacity. -/
theorem live_stable {os : Platform} {s : System} (reachable : Reachable os s) :
    (∃ blocks, Chain s.machine.memory heapStart blocks ∧
      (∀ a ∈ s.live, ∃ b ∈ blocks, b.isFree = false ∧ b.addr = blockGetHeader a.pointer) ∧
      ∀ b ∈ blocks, b.isFree = false →
        (s.live.map Allocation.pointer).count b.contents = 1) ∧
    ∀ query pointer s', AdmissibleStep os s (.malloc query pointer) s' → pointer ≠ null →
      ∃ capacity, max query blockMinCapacity ≤ capacity ∧
        capacity ≤ max query blockMinCapacity + 40 ∧
        ∀ actions s'', Run (AdmissibleStep os) s' actions s'' → .free pointer ∉ actions →
          ∃ blocks, Chain s''.machine.memory heapStart blocks ∧
            ⟨blockGetHeader pointer, capacity, false⟩ ∈ blocks := by
  obtain ⟨blocks, invariant⟩ := reachable.invariant
  constructor
  · refine ⟨blocks, invariant.heap.chain, ?_, ?_⟩
    · intro a live
      obtain ⟨b, taken, serves⟩ := invariant.owned.served a live
      obtain ⟨member, isTaken⟩ := mem_takens.mp taken
      exact ⟨b, member, isTaken, (invariant.header_of_serves member serves).symm⟩
    · intro b member isTaken
      obtain ⟨a, live, same⟩ := invariant.owned.owned b (mem_takens.mpr ⟨member, isTaken⟩)
      apply List.count_eq_one_of_mem invariant.owned.distinct
      exact same ▸ List.mem_map_of_mem live
  · rintro query pointer s' step nonnull
    have safe := step.safe
    obtain ⟨_, step⟩ := step
    cases step with
    | @malloc m m' live query pointer _ returned =>
        obtain ⟨_, _, _, invariant'⟩ := invariant.malloc_step safe.1 rfl returned
        have given : (⟨pointer, query⟩ : Allocation) ∈ obtained live query pointer := by
          simp [obtained, nonnull]
        obtain ⟨b, taken, serves⟩ := invariant'.owned.served _ given
        obtain ⟨member, isTaken⟩ := mem_takens.mp taken
        have header := invariant'.header_of_serves member serves
        have same : b.contents = pointer := serves.pointer
        refine ⟨b.capacity, serves.enough, serves.tight, ?_⟩
        intro actions s'' run unfreed
        rw [← same] at unfreed
        obtain ⟨blocks'', invariant'', taken''⟩ := invariant'.keeps_taken_along run taken unfreed
        refine ⟨blocks'', invariant''.heap.chain, ?_⟩
        have whole : b = ⟨blockGetHeader pointer, b.capacity, false⟩ := by
          rw [header, ← isTaken]
        exact whole ▸ (mem_takens.mp taken'').1

theorem live_stable_of_two : ∃ s s' capacity,
    session granting 8175 [.malloc 100] = some s ∧
    AdmissibleStep granting s (.malloc 200 67371142) s' ∧ 200 ≤ capacity ∧ capacity ≤ 240 ∧
    ∀ actions s'', Run (AdmissibleStep granting) s' actions s'' → .free 67371142 ∉ actions →
      ∃ blocks, Chain s''.machine.memory heapStart blocks ∧
        ⟨67371142 - 17, capacity, false⟩ ∈ blocks := by
  have first : (session granting 8175 [.malloc 100]).isSome = true := by decide +kernel
  have second : ((session granting 8175 [.malloc 100]).bind fun s =>
      perform granting s (.malloc 200)).map (fun r => r.1) = some (.malloc 200 67371142) := by
    decide +kernel
  obtain ⟨s, started⟩ := Option.isSome_iff_exists.mp first
  rw [started, Option.bind_some] at second
  obtain ⟨⟨action, s'⟩, performed, named⟩ := Option.map_eq_some_iff.mp second
  obtain rfl : action = .malloc 200 67371142 := named
  have step := perform_step (by decide) performed
  have reachable := session_reachable (by decide) (by decide) started
  obtain ⟨_, stable⟩ := live_stable reachable
  obtain ⟨capacity, enough, tight, stays⟩ := stable 200 67371142 s' step (by decide)
  exact ⟨s, s', capacity, started, step, enough, tight, stays⟩

end MemoryAllocator
