import MemoryAllocator.Freeing
import MemoryAllocator.Foundation.Amortised

/-! What calls cost, counted in accesses to headers, one for each field that the source reads or
writes through a block pointer and one for a whole header: a search is linear in the list it
walks, and the merges of `_free` are paid for by the calls of `_malloc` that made the blocks. -/
namespace MemoryAllocator
open Foundation

/-- At most so many accesses to headers are made on the way from one machine to another. -/
def Spends (m m' : Machine) (touched : Nat) : Prop :=
  m'.accesses.length ≤ m.accesses.length + touched

/-- At least so many accesses to headers are made. -/
def Needs (m m' : Machine) (touched : Nat) : Prop :=
  m.accesses.length + touched ≤ m'.accesses.length

theorem Needs.trans {m m' m'' : Machine} {n n' : Nat} (first : Needs m m' n)
    (second : Needs m' m'' n') : Needs m m'' (n + n') := by
  unfold Needs at first second ⊢
  omega

theorem Needs.mono {m m' : Machine} {n n' : Nat} (needs : Needs m m' n) (fewer : n' ≤ n) :
    Needs m m' n' := by
  unfold Needs at needs ⊢
  omega

namespace Spends

variable {m m' m'' : Machine} {n n' : Nat}

theorem mono (spends : Spends m m' n) (more : n ≤ n') : Spends m m' n' := by
  unfold Spends at spends ⊢
  omega

theorem trans (first : Spends m m' n) (second : Spends m' m'' n') : Spends m m'' (n + n') := by
  unfold Spends at first second ⊢
  omega

theorem touch {kind : AccessKind} {block : Nat}
    (grown : m'.accesses = m.accesses ++ [⟨kind, block, m.memory⟩]) : Spends m m' 1 := by
  simp [Spends, grown]

end Spends

section
variable {os : Platform} {m : Machine} {pre post : List Block} {b : Block}

theorem tryMergeWithNext_counts (os : Platform) (m : Machine) (block : Nat) :
    Ensures (tryMergeWithNext os block) m fun merged m' =>
      Spends m m' (if merged then 11 else 5) ∧ Needs m m' (if merged then 11 else 0) := by
  by_cases absent : block = null
  · simp only [tryMergeWithNext, if_pos absent, ensures_pure]
    simp [Spends, Needs]
  generalize following : (header m.memory block).next = next
  by_cases alone : next = null
  · simp only [tryMergeWithNext, if_neg absent, ensures_bind, ensures_loadNext, following,
      if_pos alone, ensures_pure]
    simp [Spends, Needs]
  simp only [tryMergeWithNext, mergeable, blocksContinuous, blockAfter, if_neg absent, ensures_bind,
    ensures_loadNext, following, if_neg alone, ensures_loadIsFree, touched_memory]
  by_cases blockFree : (header m.memory block).isFree = true
  · simp only [blockFree, if_true, ensures_bind, ensures_loadIsFree, touched_memory]
    by_cases nextFree : (header m.memory next).isFree = true
    · simp only [nextFree, if_true, ensures_bind, ensures_loadCapacity, ensures_pure,
        touched_memory]
      by_cases meets :
          (next == (contents block + (header m.memory block).capacity.bytes) % 2 ^ 64) = true
      · simp only [meets, if_true, ensures_bind, ensures_loadCapacity, ensures_loadNext,
          ensures_blockInit, ensures_pure, touched_memory, following]
        simp [Spends, Needs]
      · simp only [meets, Bool.false_eq_true, if_false, ensures_pure]
        simp [Spends, Needs]
    · simp only [nextFree, Bool.false_eq_true, if_false, ensures_pure]
      simp [Spends, Needs]
  · simp only [blockFree, Bool.false_eq_true, if_false, ensures_pure]
    simp [Spends, Needs]

theorem tryMergeWithNext_spends (os : Platform) (m : Machine) (block : Nat) :
    Ensures (tryMergeWithNext os block) m fun merged m' =>
      Spends m m' (if merged then 11 else 5) :=
  (tryMergeWithNext_counts os m block).mono fun _ _ counts => counts.1

theorem splitIfTooBig_spends (os : Platform) (m : Machine) (block query : Nat) :
    Ensures (splitIfTooBig os block query) m fun _ m' => Spends m m' 7 := by
  simp only [splitIfTooBig, blockSplittable, ensures_bind]
  by_cases absent : block = null
  · simp only [if_pos absent, ensures_pure, Bool.false_eq_true, if_false]
    simp [Spends]
  simp only [if_neg absent, ensures_bind, ensures_loadIsFree]
  by_cases free : (header m.memory block).isFree = true
  · simp only [free, if_true, ensures_bind, ensures_loadCapacity, ensures_pure, touched_memory]
    by_cases large : (query + contentsOffset + blockMinCapacity) % 2 ^ 64 ≤
        (header m.memory block).capacity.bytes
    · simp only [large, decide_true, if_true, ensures_bind, ensures_loadCapacity, ensures_loadNext,
        ensures_blockInit, ensures_storeCapacity, ensures_storeNext, ensures_pure]
      simp [Spends]
    · simp only [large, decide_false, Bool.false_eq_true, if_false, ensures_pure]
      simp [Spends]
  · simp only [free, Bool.false_eq_true, if_false, ensures_pure]
    simp [Spends]

theorem storeIsFree_spends (m : Machine) (block : Nat) (flag : Bool) :
    Ensures (storeIsFree block flag) m fun _ m' => Spends m m' 1 := by
  rw [ensures_storeIsFree]
  exact .touch rfl

theorem allocRegion_spends (os : Platform) (m : Machine) (hint query : Nat) :
    Ensures (allocRegion os hint query) m fun _ m' => Spends m m' 1 := by
  cases asked : requestRegion (os.since m.calls) hint (regionSize os.pageSize query) with
  | mk region events =>
      refine (allocRegion_requests asked).mono ?_
      rintro r m' ⟨_, ⟨_, _, _, same⟩ | ⟨_, _, obtained⟩⟩
      · simp [Spends, same]
      · obtain ⟨a, _, grown⟩ := obtained.accesses
        simp [Spends, grown]

theorem growHeap_spends (os : Platform) (m : Machine) (last query : Nat) :
    Ensures (growHeap os last query) m fun _ m' => Spends m m' 15 := by
  by_cases absent : last = null
  · simp only [growHeap, if_pos absent, ensures_pure]
    simp [Spends]
  simp only [growHeap, blockAfter, if_neg absent, ensures_bind, ensures_loadCapacity, ensures_pure]
  have measured : Spends m (m.touched .read last) 1 := .touch rfl
  refine (allocRegion_spends os _ _ query).mono ?_
  intro region m₁ mapped
  have upTo := measured.trans mapped
  -- linked behind a block that the region does not extend
  have apart : ∀ m₁, Spends m m₁ 3 →
      Ensures (storeNext last region.addr) m₁ fun _ m' => Spends m m' 15 := by
    intro m₁ upTo
    rw [ensures_storeNext]
    exact (upTo.trans (.touch rfl)).mono (by decide)
  cases invalid : (regionIsInvalid region || !region.extends') with
  | true =>
      simp only [if_true, ensures_pure, ensures_bind]
      exact (apart m₁ (upTo.mono (by decide))).mono fun _ _ spends => spends
  | false =>
      simp only [Bool.false_eq_true, if_false, ensures_bind, ensures_map, ensures_loadIsFree]
      have looked : Spends m (m₁.touched .read last) 3 := upTo.trans (.touch rfl)
      cases taken : !(header m₁.memory last).isFree with
      | true =>
          simp only [if_true, ensures_bind, ensures_pure]
          exact (apart _ looked).mono fun _ _ spends => spends
      | false =>
          simp only [Bool.false_eq_true, if_false, ensures_bind, ensures_storeNext]
          refine (tryMergeWithNext_spends os _ last).mono ?_
          intro merged m₂ tried
          have linked : Spends m m₂ (4 + if merged then 11 else 5) :=
            (looked.trans (.touch rfl)).trans tried
          cases merged with
          | true =>
              simp only [if_true, ensures_pure] at linked ⊢
              exact linked
          | false =>
              simp only [Bool.false_eq_true, if_false, ensures_loadNext] at linked ⊢
              exact (linked.trans (.touch rfl)).mono (by decide)

/-- Eleven accesses for every block that is absorbed, and at most five to see that no more are. -/
theorem mergeLoop_counts {rounds : Nat} (holds : Holds m.memory (pre ++ b :: post))
    (enough : post.length < rounds) :
    Ensures (mergeLoop os rounds b.addr) m fun _ m' =>
      Spends m m' (11 * (post.length - (Block.fusion.absorb b post).2.length) + 5) ∧
      Needs m m' (11 * (post.length - (Block.fusion.absorb b post).2.length)) := by
  induction post generalizing b m rounds with
  | nil =>
      obtain ⟨rounds, rfl⟩ := Nat.exists_eq_succ_of_ne_zero (Nat.ne_of_gt enough)
      apply Ensures.bind ((tryMergeWithNext_stays holds (by simp)).and
        (tryMergeWithNext_counts os m b.addr))
      rintro merged m' ⟨⟨rfl, _⟩, spends, needs⟩
      simp only [Bool.false_eq_true, if_false, ensures_pure] at spends needs ⊢
      exact ⟨spends.mono (by omega), needs.mono (by simp)⟩
  | cons c rest ih =>
      obtain ⟨rounds, rfl⟩ :=
        Nat.exists_eq_succ_of_ne_zero (Nat.ne_of_gt (Nat.zero_lt_of_lt enough))
      cases fusible : b.fusible c with
      | true =>
          apply Ensures.bind ((tryMergeWithNext_fuses holds fusible).and
            (tryMergeWithNext_counts os m b.addr))
          rintro merged m' ⟨⟨rfl, merges⟩, spends, needs⟩
          have absorbed : Block.fusion.absorb b (c :: rest) =
              Block.fusion.absorb (b.fuse c) rest := if_pos fusible
          have shorter := Fusion.absorb_length_le (F := Block.fusion) (b.fuse c) rest
          simp only [if_true] at spends needs ⊢
          refine (ih merges.holds (b := b.fuse c) (Nat.lt_of_succ_lt_succ enough)).mono ?_
          rintro _ m'' ⟨spends', needs'⟩
          rw [absorbed]
          refine ⟨(spends.trans spends').mono ?_, (needs.trans needs').mono ?_⟩
          · simp only [List.length_cons]
            omega
          · simp only [List.length_cons]
            omega
      | false =>
          apply Ensures.bind ((tryMergeWithNext_stays holds (by simpa using fusible)).and
            (tryMergeWithNext_counts os m b.addr))
          rintro merged m' ⟨⟨rfl, _⟩, spends, needs⟩
          have kept : Block.fusion.absorb b (c :: rest) = (b, c :: rest) :=
            if_neg (by simp [show Block.fusion.fusible b c = false from fusible])
          simp only [Bool.false_eq_true, if_false, ensures_pure] at spends needs ⊢
          exact ⟨spends.mono (by omega), needs.mono (by simp [kept])⟩

theorem visitBlock_spends {sz : Nat} (holds : Holds m.memory (pre ++ b :: post)) :
    Ensures (visitBlock os sz b.addr) m fun _ m' =>
      Spends m m' (11 * (post.length - (Block.fusion.absorb b post).2.length) + 7) := by
  have bHeader := holds.header_at
  have looked : Spends m (m.touched .read b.addr) 1 := .touch rfl
  simp only [visitBlock, ensures_bind, ensures_loadIsFree, bHeader]
  cases bFree : b.isFree with
  | false =>
      simp only [Bool.false_eq_true, if_false, ensures_pure]
      exact looked.mono (by omega)
  | true =>
      have there : Holds (m.touched .read b.addr).memory (pre ++ b :: post) := holds
      have enough : post.length < loopBound := Nat.lt_of_succ_lt holds.rest_lt
      simp only [if_true, blockIsBigEnough, ensures_bind, ensures_loadCapacity, ensures_pure]
      refine (mergeLoop_counts there enough).mono ?_
      rintro _ m' ⟨merged, _⟩
      exact ((looked.trans merged).trans (.touch rfl)).mono (by omega)

theorem searchLoop_spends {sz rounds last : Nat} (holds : Holds m.memory (pre ++ b :: post))
    (enough : post.length + 1 < rounds) :
    Ensures (searchLoop os sz rounds last b.addr) m fun _ m' =>
      Spends m m' (11 * (post.length + 1)) := by
  induction rounds generalizing m pre b post last with
  | zero => omega
  | succ rounds ih =>
      have bNull := holds.wellFormed.nonnull (b := b) (by simp)
      simp only [searchLoop, if_neg bNull]
      apply Ensures.bind ((visitBlock_measures holds).and (visitBlock_spends holds))
      rintro good m' ⟨⟨rfl, merges⟩, visited⟩
      have shorter := Fusion.absorb_length_le (F := Block.fusion) b post
      have same := absorb_addr b post
      generalize Block.fusion.absorb b post = absorbed at merges shorter same visited ⊢
      obtain ⟨a, rest⟩ := absorbed
      simp only at merges shorter same visited ⊢
      cases fits : a.fits sz with
      | true =>
          simp only [if_true, ensures_pure]
          exact visited.mono (by omega)
      | false =>
          have aHeader := merges.holds.header_at
          have onward : Spends m (m'.touched .read b.addr) _ := visited.trans (.touch rfl)
          simp only [Bool.false_eq_true, if_false, ensures_bind, ensures_loadNext]
          rw [← same, aHeader]
          rw [← same] at onward
          cases rest with
          | nil =>
              obtain ⟨rounds, rfl⟩ : ∃ n, rounds = n + 1 := ⟨rounds - 1, by omega⟩
              simp only [searchLoop, headAddr_nil, if_true, ensures_pure]
              exact onward.mono (by simp only [List.length_nil]; omega)
          | cons c rest =>
              have split : pre ++ a :: c :: rest = (pre ++ [a]) ++ c :: rest := by simp
              have there : Holds (m'.touched .read a.addr).memory ((pre ++ [a]) ++ c :: rest) :=
                split ▸ merges.holds
              simp only [headAddr_cons]
              simp only [List.length_cons] at shorter onward
              refine (ih there (by omega)).mono ?_
              intro r m'' later
              exact (onward.trans later).mono (by omega)

theorem tryMemallocExisting_spends {query : Nat} (holds : Holds m.memory (pre ++ b :: post)) :
    Ensures (tryMemallocExisting os query b.addr) m fun _ m' =>
      Spends m m' (11 * (post.length + 1) + 8) := by
  have bNull := holds.wellFormed.nonnull (b := b) (by simp)
  have enough : post.length + 1 < loopBound := holds.rest_lt
  simp only [tryMemallocExisting, findGoodOrLast, if_neg bNull]
  apply Ensures.bind (searchLoop_spends holds enough)
  intro r m' searched
  by_cases found : r.type = .foundGoodBlock
  · simp only [if_pos found, ensures_bind, ensures_pure]
    refine (splitIfTooBig_spends os m' r.block query).mono fun _ m₁ split => ?_
    refine (storeIsFree_spends m₁ r.block false).mono fun _ m₂ marked => ?_
    exact (searched.trans split).trans marked
  · simp only [if_neg found, ensures_pure]
    exact searched.mono (by omega)

theorem malloc_spends (os : Platform) (query : Nat) {blocks : List Block} (heap : Heap m blocks) :
    Ensures (malloc os query) m fun _ m' => Spends m m' (11 * blocks.length + 42) := by
  obtain ⟨b, rest, rfl, start, whole⟩ := heap.head
  obtain ⟨holds, _, tiled⟩ := heap
  have large : blockMinCapacity ≤ max query blockMinCapacity := le_max_right _ _
  have spec := Fusion.search_spec (F := Block.fusion)
    (Block.fits (max query blockMinCapacity)) b rest
  have spends : Ensures (tryMemallocExisting os (max query blockMinCapacity) b.addr) m fun _ m' =>
      Spends m m' (11 * (rest.length + 1) + 8) := tryMemallocExisting_spends whole.holds
  have first := (tryMemallocExisting_serves os whole.holds large whole.roomy).and spends
  rw [start] at first
  simp only [malloc, memalloc, sizeMax_eq, max_assoc, max_self, ensures_bind]
  refine first.mono ?_
  rintro r m₁ ⟨⟨rfl, calls, evolves⟩, searched⟩
  rw [List.length_cons]
  cases result : Block.fusion.search (Block.fits (max query blockMinCapacity)) b rest with
  | found before good after =>
      simp only [report, ensures_pure]
      exact searched.mono (by omega)
  | exhausted before last =>
      rw [result] at spec evolves
      have same : extents (before ++ [last]) = extents (b :: rest) := extents_fuses spec.fuses
      simp only [report, ensures_bind]
      cases asked : requestRegion (os.since m₁.calls) last.stop
          (regionSize os.pageSize (max query blockMinCapacity)) with
      | mk region events =>
          have grows := (growHeap_grows evolves.holds (by rw [same, tiled, calls]) asked).and
            (growHeap_spends os m₁ last.addr (max query blockMinCapacity))
          refine grows.mono ?_
          rintro g m₂ ⟨⟨_, ⟨_, rfl, _⟩ | ⟨_, rfl, evolves'⟩⟩, grown⟩
          · rw [tryMemallocExisting_null]
            simp only [ensures_pure]
            exact (searched.trans grown).mono (by omega)
          · have there : Holds m₂.memory (_ ++ _ :: []) := evolves'.holds
            refine (tryMemallocExisting_spends there).mono fun r m' again => ?_
            simp only [ensures_pure]
            refine ((searched.trans grown).trans again).mono ?_
            rw [List.length_nil]

/-- A free makes eleven accesses for each block it takes off the list, and at most six more. -/
theorem free_counts (os : Platform) (holds : Holds m.memory (pre ++ b :: post)) :
    Ensures (free os b.contents) m fun _ m' => ∃ absorbed,
      (ListAllocator.free b.contents (pre ++ b :: post)).length + absorbed =
        (pre ++ b :: post).length ∧
      Spends m m' (11 * absorbed + 6) ∧ Needs m m' (11 * absorbed) := by
  have marked : Holds (m.released b.addr).memory (pre ++ b.release :: post) := holds.storeIsFree
  have stored : Spends m (m.released b.addr) 1 := .touch rfl
  have stored' : Needs m (m.released b.addr) 0 := by simp [Needs, Machine.released]
  have shorter := Fusion.absorb_length_le (F := Block.fusion) b.release post
  rw [ensures_free holds.wellFormed, free_at holds.wellFormed]
  refine (mergeLoop_counts (b := b.release) marked (Nat.lt_of_succ_lt holds.rest_lt)).mono ?_
  rintro _ m' ⟨spends, needs⟩
  refine ⟨post.length - (Block.fusion.absorb b.release post).2.length, ?_,
    (stored.trans spends).mono (by omega), (stored'.trans needs).mono (by omega)⟩
  simp only [List.length_append, List.length_cons]
  omega

end

theorem carve_length (query : Nat) (b : Block) : (b.carve query).length ≤ 2 := by
  unfold Block.carve
  split <;> simp

/-- A request adds at most two blocks: a region, and the rest of a split. -/
theorem Outcome.length {pageSize query : Nat} {answer : Answers} {blocks : List Block} {r : Reply}
    (outcome : Outcome pageSize answer query blocks r) : r.blocks.length ≤ blocks.length + 2 := by
  cases outcome with
  | @found before after good searched =>
      have fused := searched.fuses.length_le
      have carved := carve_length query good
      simp only [SearchResult.list, List.length_append, List.length_cons] at fused ⊢
      omega
  | refused searched _ =>
      have fused := searched.fuses.length_le
      simp only [SearchResult.list] at fused
      exact fused.trans (Nat.le_add_right _ _)
  | @grown before front last block region events searched _ _ grew =>
      have fused := searched.fuses.length_le
      have front : front.length ≤ before.length + 1 := by
        unfold growth at grew
        split at grew
        · obtain ⟨rfl, _⟩ := Prod.mk.inj grew
          exact Nat.le_succ _
        · obtain ⟨rfl, _⟩ := Prod.mk.inj grew
          simp
      have served : (serveLast query block).length ≤ 2 := by
        unfold serveLast
        split
        · exact carve_length query block
        · simp
      simp only [SearchResult.list, List.length_append, List.length_singleton] at fused ⊢
      omega

namespace Action

def isMalloc : Action → Bool
  | malloc _ _ => true
  | _ => false

def isFree : Action → Bool
  | free _ => true
  | _ => false

end Action

def freeTouches (s : System) (action : Action) (s' : System) : Nat :=
  if action.isFree then s'.machine.accesses.length - s.machine.accesses.length else 0

/-- What is charged for an action: each kind of call its own constant, a write nothing. -/
def charged (perMalloc perFree : Nat) (action : Action) : Nat :=
  if action.isMalloc then perMalloc else if action.isFree then perFree else 0

theorem charged_sum (perMalloc perFree : Nat) (actions : List Action) :
    (actions.map (charged perMalloc perFree)).sum =
      perMalloc * actions.countP Action.isMalloc + perFree * actions.countP Action.isFree := by
  induction actions with
  | nil => rfl
  | cons action rest ih =>
      rw [List.map_cons, List.sum_cons, ih, List.countP_cons, List.countP_cons]
      cases action with
      | malloc query pointer =>
          simp [charged, Action.isMalloc, Action.isFree, Nat.mul_succ]
          omega
      | free pointer =>
          simp [charged, Action.isMalloc, Action.isFree, Nat.mul_succ]
          omega
      | write address byte => simp [charged, Action.isMalloc, Action.isFree]

section
variable {os : Platform} {start s : System} {actions : List Action}

theorem Invariant.malloc_length {blocks : List Block} (invariant : Invariant os s blocks)
    {query pointer : Nat} {m' : Machine} (servable : Servable os s.machine.calls query)
    (returned : malloc os query s.machine = some (pointer, m')) :
    ∃ blocks', Invariant os ⟨m', obtained s.live query pointer⟩ blocks' ∧
      blocks'.length ≤ blocks.length + 2 :=
  ⟨_, (invariant.malloc_step servable rfl returned).2.2.2,
    (invariant.heap.replied returned).outcome.length⟩

theorem Invariant.free_cost {blocks : List Block} (invariant : Invariant os s blocks)
    {a : Allocation} {m' : Machine} (live : a ∈ s.live)
    (returned : free os a.pointer s.machine = some ((), m')) :
    ∃ absorbed, (ListAllocator.free a.pointer blocks).length + absorbed = blocks.length ∧
      Invariant os ⟨m', dropped s.live a.pointer⟩ (ListAllocator.free a.pointer blocks) ∧
      Spends s.machine m' (11 * absorbed + 6) ∧ Needs s.machine m' (11 * absorbed) := by
  obtain ⟨_, invariant'⟩ := invariant.free_step live returned
  obtain ⟨pre, b, post, rfl, _, serves⟩ := invariant.block_of_live live
  rw [← serves.pointer] at returned
  obtain ⟨absorbed, fewer, counts⟩ := (free_counts os invariant.heap.holds).of_returns returned
  rw [serves.pointer] at fewer
  exact ⟨absorbed, fewer, invariant', counts⟩

/-- Every block of the list has paid for the merge that takes it off the list. -/
theorem frees_pay (os : Platform) : Pays (AdmissibleStep os) freeTouches
    (fun s saved => ∃ blocks, Invariant os s blocks ∧ saved = 11 * blocks.length)
    (charged 22 6) := by
  constructor
  rintro s s' action _ ⟨blocks, invariant, rfl⟩ step
  have safe := step.safe
  obtain ⟨_, taken⟩ := step
  cases taken with
  | malloc _ returned =>
      obtain ⟨blocks', invariant', longer⟩ := invariant.malloc_length safe.1 returned
      refine ⟨_, ⟨blocks', invariant', rfl⟩, ?_⟩
      simp only [freeTouches, charged, Action.isMalloc, Action.isFree, Bool.false_eq_true, if_true,
        if_false]
      omega
  | free live returned =>
      obtain ⟨absorbed, fewer, invariant', spends, _⟩ := invariant.free_cost live returned
      refine ⟨_, ⟨_, invariant', rfl⟩, ?_⟩
      simp only [Spends] at spends
      simp only [freeTouches, charged, Action.isMalloc, Action.isFree, Bool.false_eq_true,
        if_true, if_false]
      omega
  | write live lower upper =>
      refine ⟨_, ⟨blocks, invariant.write_step live lower upper, rfl⟩, ?_⟩
      simp [freeTouches, charged, Action.isMalloc, Action.isFree]

theorem blocks_pay (os : Platform) : Pays (AdmissibleStep os) (fun _ _ _ => 0)
    (fun s saved => ∃ blocks, Invariant os s blocks ∧ saved = blocks.length) (charged 2 0) := by
  constructor
  rintro s s' action _ ⟨blocks, invariant, rfl⟩ step
  have safe := step.safe
  obtain ⟨_, taken⟩ := step
  cases taken with
  | malloc _ returned =>
      obtain ⟨blocks', invariant', longer⟩ := invariant.malloc_length safe.1 returned
      refine ⟨_, ⟨blocks', invariant', rfl⟩, ?_⟩
      simp only [charged, Action.isMalloc, if_true]
      omega
  | free live returned =>
      obtain ⟨absorbed, fewer, invariant', _⟩ := invariant.free_cost live returned
      refine ⟨_, ⟨_, invariant', rfl⟩, ?_⟩
      simp only [charged, Action.isMalloc, Action.isFree, Bool.false_eq_true, if_true, if_false]
      omega
  | write live lower upper =>
      refine ⟨_, ⟨blocks, invariant.write_step live lower upper, rfl⟩, ?_⟩
      simp [charged, Action.isMalloc, Action.isFree]

theorem Started.one_block (started : Started os start) :
    ∃ b, Invariant os start [b] := by
  obtain ⟨returned⟩ := started
  exact ⟨_, (init_invariant (by assumption)).2⟩

end

/-- However often blocks are freed and whatever is asked for, a call of `_malloc` makes at most
twenty-two accesses to headers for each earlier call, and a few more. -/
theorem malloc_touches_linear {os : Platform} {start s : System} {actions : List Action}
    (started : Started os start) (run : Run (AdmissibleStep os) start actions s) (query : Nat) :
    Ensures (malloc os query) s.machine fun _ m' =>
      m'.accesses.length ≤
        s.machine.accesses.length + 22 * actions.countP Action.isMalloc + 53 := by
  obtain ⟨b, invariant⟩ := started.one_block
  obtain ⟨_, metered⟩ := run.metered fun _ _ _ => 0
  obtain ⟨_, ⟨blocks, invariant', rfl⟩, paid⟩ := (blocks_pay os).run metered ⟨[b], invariant, rfl⟩
  rw [charged_sum, List.length_singleton] at paid
  refine (malloc_spends os query invariant'.heap).mono fun _ m' spends => ?_
  unfold Spends at spends
  omega

theorem malloc_touches_linear_of_three : ∃ m actions s,
    heapInit granting 8175 ⟨fun _ => 0, [], []⟩ = some (heapStart, m) ∧
    Run (AdmissibleStep granting) ⟨m, []⟩ actions s ∧
    actions.filterMap Action.request = sampleRequests ∧
    Ensures (malloc granting (2 ^ 64 - 1)) s.machine fun _ m' => m'.accesses.length ≤
      s.machine.accesses.length + 22 * actions.countP Action.isMalloc + 53 := by
  obtain ⟨m, actions, s, returned, started, run, requests, _⟩ := sample_run
  exact ⟨m, actions, s, returned, run, requests, malloc_touches_linear started run _⟩

/-- Over a whole run the calls of `_free` make at most six accesses to headers each, and
twenty-two more for each call of `_malloc`: merging is paid for in advance. -/
theorem free_touches_amortised {os : Platform} {start s : System} {actions : List Action}
    {spent : Nat} (started : Started os start)
    (run : MeteredRun (AdmissibleStep os) freeTouches start actions spent s) :
    spent ≤ 6 * actions.countP Action.isFree + 22 * actions.countP Action.isMalloc + 11 := by
  obtain ⟨b, invariant⟩ := started.one_block
  obtain ⟨_, _, paid⟩ := (frees_pay os).run run ⟨[b], invariant, rfl⟩
  rw [charged_sum, List.length_singleton] at paid
  omega

theorem free_touches_amortised_of_three : ∃ m actions spent s,
    heapInit granting 8175 ⟨fun _ => 0, [], []⟩ = some (heapStart, m) ∧
    MeteredRun (AdmissibleStep granting) freeTouches ⟨m, []⟩ actions spent s ∧
    actions.filterMap Action.request = sampleRequests ∧
    spent ≤ 6 * actions.countP Action.isFree + 22 * actions.countP Action.isMalloc + 11 := by
  obtain ⟨m, actions, s, returned, started, run, requests, _⟩ := sample_run
  obtain ⟨spent, metered⟩ := run.metered freeTouches
  exact ⟨m, actions, spent, s, returned, metered, requests,
    free_touches_amortised started metered⟩

end MemoryAllocator
