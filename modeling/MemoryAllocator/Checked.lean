import MemoryAllocator.GrowHeap

/-! The code with checked arithmetic. Each sum and difference of block sizes and addresses is
formed over unbounded numbers, and the code does not return where the result is no `size_t`.
On reachable heaps it returns what the wrapping code returns, so nothing ever wraps. Only the
size of a region is computed as before. -/
namespace MemoryAllocator
open Foundation

namespace Checked

def add (x y : Nat) : Exec Nat := fun m => if x + y < 2 ^ 64 then some (x + y, m) else none

def sub (x y : Nat) : Exec Nat := fun m => if y ≤ x then some (x - y, m) else none

def sizeFromCapacity (cap : BlockCapacity) : Exec BlockSize := do
  return ⟨← add cap.bytes contentsOffset⟩

def capacityFromSize (sz : BlockSize) : Exec BlockCapacity := do
  return ⟨← sub sz.bytes contentsOffset⟩

def contents (block : Nat) : Exec Nat := add block contentsOffset

def storeHeader (os : Platform) (addr : Nat) (h : BlockHeader) : Exec Unit := fun m =>
  some ((), { m.touched .init addr with
    memory := writeBytes m.memory addr (headerBytes h (os.padding m addr)) })

def blockInit (os : Platform) (addr : Nat) (blockSz : BlockSize) (next : Nat) : Exec Unit := do
  storeHeader os addr ⟨next, ← capacityFromSize blockSz, true⟩

def allocRegion (os : Platform) (addr : Nat) (query : Nat) : Exec Region := do
  let size := regionActualSize os.pageSize (MemoryAllocator.sizeFromCapacity ⟨query⟩).bytes
  let first ← mapPages os addr size mapFixedNoreplace
  let mapped ← if first = mapFailed then mapPages os addr size 0 else pure first
  if mapped = mapFailed then
    return regionInvalid
  else
    blockInit os mapped ⟨size⟩ null
    return ⟨mapped, size, mapped == addr⟩

def blockSplittable (block query : Nat) : Exec Bool := do
  if block = null then
    return false
  else if ← loadIsFree block then
    let needed ← add (← add query contentsOffset) blockMinCapacity
    return decide (needed ≤ (← loadCapacity block).bytes)
  else
    return false

def splitIfTooBig (os : Platform) (block query : Nat) : Exec Bool := do
  if ← blockSplittable block query then
    let nextBlockAddress ← add (← contents block) query
    let capacity ← loadCapacity block
    let next ← loadNext block
    blockInit os nextBlockAddress ⟨← sub capacity.bytes query⟩ next
    storeCapacity block ⟨query⟩
    storeNext block nextBlockAddress
    return true
  else
    return false

def blockAfter (block : Nat) : Exec Nat := do
  let capacity ← loadCapacity block
  add (← contents block) capacity.bytes

def blocksContinuous (fst snd : Nat) : Exec Bool := do
  return snd == (← blockAfter fst)

def mergeable (fst snd : Nat) : Exec Bool := do
  if ← loadIsFree fst then
    if ← loadIsFree snd then
      blocksContinuous fst snd
    else
      return false
  else
    return false

def tryMergeWithNext (os : Platform) (block : Nat) : Exec Bool := do
  if block = null then
    return false
  else if (← loadNext block) = null then
    return false
  else if ← mergeable block (← loadNext block) then
    let capacity ← loadCapacity block
    let nextCapacity ← loadCapacity (← loadNext block)
    let nextNext ← loadNext (← loadNext block)
    let size ← add (← sizeFromCapacity capacity).bytes (← sizeFromCapacity nextCapacity).bytes
    blockInit os block ⟨size⟩ nextNext
    return true
  else
    return false

def mergeLoop (os : Platform) : Nat → Nat → Exec Unit
  | 0, _ => fun _ => none
  | rounds + 1, block => do
      if ← tryMergeWithNext os block then
        mergeLoop os rounds block
      else
        return ()

def visitBlock (os : Platform) (sz block : Nat) : Exec Bool := do
  if ← loadIsFree block then
    mergeLoop os loopBound block
    blockIsBigEnough sz block
  else
    return false

def searchLoop (os : Platform) (sz : Nat) : Nat → Nat → Nat → Exec BlockSearchResult
  | 0, _, _ => fun _ => none
  | rounds + 1, last, block => do
      if block = null then
        return ⟨.reachedEndNotFound, last⟩
      else if ← visitBlock os sz block then
        return ⟨.foundGoodBlock, block⟩
      else
        searchLoop os sz rounds block (← loadNext block)

def findGoodOrLast (os : Platform) (block sz : Nat) : Exec BlockSearchResult := do
  if block = null then
    return ⟨.corrupted, block⟩
  else
    searchLoop os sz loopBound block block

def tryMemallocExisting (os : Platform) (query block : Nat) : Exec BlockSearchResult := do
  let result ← findGoodOrLast os block query
  if result.type = .foundGoodBlock then
    let _ ← splitIfTooBig os result.block query
    storeIsFree result.block false
    return result
  else
    return result

def growHeap (os : Platform) (last query : Nat) : Exec Nat := do
  if last = null then
    return null
  else
    let region ← allocRegion os (← blockAfter last) query
    let apart ← if regionIsInvalid region || !region.extends' then pure true
      else (fun isFree => !isFree) <$> loadIsFree last
    if apart then
      storeNext last region.addr
      return region.addr
    else
      storeNext last region.addr
      if ← tryMergeWithNext os last then
        return last
      else
        loadNext last

def memalloc (os : Platform) (query heapStart : Nat) : Exec Nat := do
  let query := sizeMax query blockMinCapacity
  let result ← tryMemallocExisting os query heapStart
  match result.type with
  | .reachedEndNotFound =>
      let grown ← growHeap os result.block query
      let again ← tryMemallocExisting os query grown
      return again.block
  | .foundGoodBlock => return result.block
  | .corrupted => return null

def malloc (os : Platform) (query : Nat) : Exec Nat := do
  let query := sizeMax query blockMinCapacity
  let addr ← memalloc os query heapStart
  if addr = null then
    return null
  else
    contents addr

def blockGetHeader (contents : Nat) : Exec Nat := sub contents contentsOffset

def free (os : Platform) (mem : Nat) : Exec Unit := do
  if mem = null then
    return ()
  else
    let block ← blockGetHeader mem
    storeIsFree block true
    mergeLoop os loopBound block

end Checked

section
variable {os : Platform} {m : Machine} {β : Type} {pre post : List Block} {b c : Block}

theorem loadNext_bind (block : Nat) (next : Nat → Exec β) :
    (loadNext block >>= next) m = next (header m.memory block).next (m.touched .read block) :=
  bind_of_returns rfl

theorem loadCapacity_bind (block : Nat) (next : BlockCapacity → Exec β) :
    (loadCapacity block >>= next) m =
      next (header m.memory block).capacity (m.touched .read block) :=
  bind_of_returns rfl

theorem loadIsFree_bind (block : Nat) (next : Bool → Exec β) :
    (loadIsFree block >>= next) m = next (header m.memory block).isFree (m.touched .read block) :=
  bind_of_returns rfl

theorem add_eq {x y : Nat} (fits : x + y < 2 ^ 64) :
    Checked.add x y m = some ((x + y) % 2 ^ 64, m) := by
  rw [Nat.mod_eq_of_lt fits]
  exact if_pos fits

theorem add_bind {x y : Nat} (fits : x + y < 2 ^ 64) (next : Nat → Exec β) :
    (Checked.add x y >>= next) m = next ((x + y) % 2 ^ 64) m :=
  bind_of_returns (add_eq fits)

theorem add_add_bind {x y z : Nat} (fits : x + y + z < 2 ^ 64) (next : Nat → Exec β) :
    (Checked.add x y >>= fun sum => Checked.add sum z >>= next) m =
      next ((x + y + z) % 2 ^ 64) m := by
  have inner : x + y < 2 ^ 64 := by omega
  have outer : (x + y) % 2 ^ 64 + z < 2 ^ 64 := by rwa [Nat.mod_eq_of_lt inner]
  rw [add_bind inner, add_bind outer, Nat.mod_add_mod]

/-- A sum that wraps is not formed. -/
theorem add_bind_none {x y : Nat} (wraps : 2 ^ 64 ≤ x + y) (next : Nat → Exec β) :
    (Checked.add x y >>= next) m = none := by
  have none : Checked.add x y m = none := if_neg (Nat.not_lt.mpr wraps)
  rw [bind_apply, none]
  rfl

theorem wrapSub_eq {x y : Nat} (fits : x < 2 ^ 64) (below : y ≤ x) : wrapSub x y = x - y := by
  simp only [wrapSub]
  omega

theorem sub_bind {x y : Nat} (fits : x < 2 ^ 64) (below : y ≤ x) (next : Nat → Exec β) :
    (Checked.sub x y >>= next) m = next (wrapSub x y) m := by
  rw [wrapSub_eq fits below]
  exact bind_of_returns (if_pos below)

namespace Checked

theorem blockInit_eq {addr next : Nat} {size : BlockSize} (fits : size.bytes < 2 ^ 64)
    (large : contentsOffset ≤ size.bytes) :
    blockInit os addr size next m = MemoryAllocator.blockInit os addr size next m := by
  rw [blockInit, capacityFromSize, bind_assoc, sub_bind fits large]
  rfl

theorem sizeFromCapacity_bind {cap : BlockCapacity} (fits : cap.bytes + contentsOffset < 2 ^ 64)
    (next : BlockSize → Exec β) :
    (sizeFromCapacity cap >>= next) m = next (MemoryAllocator.sizeFromCapacity cap) m := by
  rw [sizeFromCapacity, bind_assoc, add_bind fits]
  rfl

theorem blockAfter_eq (holds : Holds m.memory (pre ++ b :: post)) :
    blockAfter b.addr m = MemoryAllocator.blockAfter b.addr m := by
  have stop := holds.wellFormed.stop_lt (b := b) (by simp)
  have fits := contents_fit holds.wellFormed (b := b) (by simp)
  have whole : (b.addr + contentsOffset) % 2 ^ 64 + b.capacity < 2 ^ 64 := by
    rwa [Nat.mod_eq_of_lt fits, Nat.add_assoc]
  rw [blockAfter, MemoryAllocator.blockAfter, loadCapacity_bind, loadCapacity_bind,
    holds.header_at, contents, add_bind fits, add_eq whole]
  rfl

theorem mergeable_eq (holds : Holds m.memory (pre ++ b :: post)) (next : Nat) :
    mergeable b.addr next m = MemoryAllocator.mergeable b.addr next m := by
  rw [mergeable, MemoryAllocator.mergeable, loadIsFree_bind, loadIsFree_bind]
  by_cases free : (header m.memory b.addr).isFree = true
  · rw [if_pos free, if_pos free, loadIsFree_bind, loadIsFree_bind]
    by_cases nextFree : (header m.memory next).isFree = true
    · simp only [touched_memory, nextFree, if_true]
      exact bind_agree (blockAfter_eq holds) fun _ _ _ => rfl
    · simp only [touched_memory, nextFree, Bool.false_eq_true, if_false]
  · rw [if_neg free, if_neg free]

end Checked

/-- The sizes of two neighbours, and their sum. -/
theorem sizes_of_merge (touching : c.addr = b.stop) (bound : c.stop < 2 ^ 64) :
    b.capacity + contentsOffset < 2 ^ 64 ∧ c.capacity + contentsOffset < 2 ^ 64 ∧
      (sizeFromCapacity ⟨b.capacity⟩).bytes + (sizeFromCapacity ⟨c.capacity⟩).bytes < 2 ^ 64 ∧
      contentsOffset ≤
        (sizeFromCapacity ⟨b.capacity⟩).bytes + (sizeFromCapacity ⟨c.capacity⟩).bytes := by
  simp only [Block.stop, Block.size, contentsOffset] at touching bound
  simp only [sizeFromCapacity, contentsOffset]
  omega

/-- Whether two neighbours may be merged is whether they are fusible. -/
theorem mergeable_decides (holds : Holds m.memory (pre ++ b :: c :: post)) :
    Ensures (mergeable b.addr c.addr) m fun merges m' =>
      merges = b.fusible c ∧ m'.memory = m.memory := by
  have bHeader := holds.header_at
  have cHeader := holds.header_next
  have after := contents_add_capacity (holds.wellFormed.stop_lt (b := b) (by simp))
  simp only [mergeable, blocksContinuous, blockAfter, ensures_bind, ensures_loadIsFree, bHeader]
  cases bFree : b.isFree with
  | false =>
      simp only [Bool.false_eq_true, if_false, ensures_pure, touched_memory]
      exact ⟨(Block.taken_not_fusible_left bFree c).symm, trivial⟩
  | true =>
      simp only [if_true, ensures_bind, ensures_loadIsFree, touched_memory, cHeader]
      cases cFree : c.isFree with
      | false =>
          simp only [Bool.false_eq_true, if_false, ensures_pure, touched_memory]
          exact ⟨(Block.taken_not_fusible_right cFree b).symm, trivial⟩
      | true =>
          simp only [if_true, ensures_bind, ensures_loadCapacity, ensures_pure, touched_memory,
            bHeader, after, Block.fusible, bFree, cFree, Bool.true_and, and_true]

namespace Checked

theorem tryMergeWithNext_eq (holds : Holds m.memory (pre ++ b :: post)) :
    tryMergeWithNext os b.addr m = MemoryAllocator.tryMergeWithNext os b.addr m := by
  have wf := holds.wellFormed
  have bNull := wf.nonnull (b := b) (by simp)
  rw [tryMergeWithNext, MemoryAllocator.tryMergeWithNext, if_neg bNull, if_neg bNull,
    loadNext_bind, loadNext_bind, holds.header_at]
  cases post with
  | nil => rfl
  | cons c rest =>
      have cNull := wf.nonnull (b := c) (by simp)
      rw [headAddr_cons, if_neg cNull, if_neg cNull, loadNext_bind, loadNext_bind,
        touched_memory, holds.header_at, headAddr_cons]
      generalize again : (m.touched .read b.addr).touched .read b.addr = n
      have read : Holds n.memory (pre ++ b :: c :: rest) := again ▸ holds
      apply bind_agree (mergeable_eq read c.addr)
      intro merges m' returned
      obtain ⟨decides, memory⟩ := (mergeable_decides read).of_returns returned
      cases merges with
      | false => simp only [Bool.false_eq_true, if_false]
      | true =>
          rw [← memory] at read
          obtain ⟨_, _, touching⟩ := Block.fusible_iff.mp decides.symm
          obtain ⟨bFits, cFits, sum, large⟩ := sizes_of_merge touching (wf.stop_lt (by simp))
          simp only [if_true, loadCapacity_bind, loadNext_bind, touched_memory, read.header_at,
            read.header_next, headAddr_cons]
          generalize Machine.touched _ _ _ = looked
          rw [sizeFromCapacity_bind bFits, sizeFromCapacity_bind cFits, add_bind sum]
          refine bind_agree (blockInit_eq (Nat.mod_lt _ (by decide)) ?_) fun _ _ _ => rfl
          rwa [Nat.mod_eq_of_lt sum]

theorem mergeLoop_eq {rounds : Nat} (holds : Holds m.memory (pre ++ b :: post)) :
    mergeLoop os rounds b.addr m = MemoryAllocator.mergeLoop os rounds b.addr m := by
  induction rounds generalizing b m post with
  | zero => rfl
  | succ rounds ih =>
      apply bind_agree (tryMergeWithNext_eq holds)
      intro merged m' returned
      cases merged with
      | false => simp only [Bool.false_eq_true, if_false]
      | true =>
          simp only [if_true]
          cases post with
          | nil =>
              obtain ⟨stays, _⟩ := (tryMergeWithNext_stays holds (by simp)).of_returns returned
              cases stays
          | cons c rest =>
              cases fusible : b.fusible c with
              | false =>
                  obtain ⟨stays, _⟩ :=
                    (tryMergeWithNext_stays holds (by simpa using fusible)).of_returns returned
                  cases stays
              | true =>
                  obtain ⟨_, merges⟩ := (tryMergeWithNext_fuses holds fusible).of_returns returned
                  exact ih (b := b.fuse c) merges.holds

theorem visitBlock_eq {sz : Nat} (holds : Holds m.memory (pre ++ b :: post)) :
    visitBlock os sz b.addr m = MemoryAllocator.visitBlock os sz b.addr m := by
  rw [visitBlock, MemoryAllocator.visitBlock, loadIsFree_bind, loadIsFree_bind]
  have read : Holds (m.touched .read b.addr).memory (pre ++ b :: post) := holds
  by_cases free : (header m.memory b.addr).isFree = true
  · rw [if_pos free, if_pos free]
    exact bind_agree (mergeLoop_eq read) fun _ _ _ => rfl
  · rw [if_neg free, if_neg free]

theorem searchLoop_eq {sz rounds last : Nat} (holds : Holds m.memory (pre ++ b :: post)) :
    searchLoop os sz rounds last b.addr m =
      MemoryAllocator.searchLoop os sz rounds last b.addr m := by
  induction rounds generalizing m pre b post last with
  | zero => rfl
  | succ rounds ih =>
      have bNull := holds.wellFormed.nonnull (b := b) (by simp)
      rw [searchLoop, MemoryAllocator.searchLoop, if_neg bNull, if_neg bNull]
      apply bind_agree (visitBlock_eq holds)
      intro good m' returned
      cases good with
      | true => simp only [if_true]
      | false =>
          obtain ⟨_, merges⟩ := (visitBlock_measures holds).of_returns returned
          have same := absorb_addr b post
          generalize Block.fusion.absorb b post = absorbed at merges same
          obtain ⟨a, rest⟩ := absorbed
          simp only at merges same
          simp only [Bool.false_eq_true, if_false, loadNext_bind, ← same, merges.holds.header_at]
          cases rest with
          | nil =>
              cases rounds with
              | zero => rfl
              | succ rounds =>
                  rw [searchLoop, MemoryAllocator.searchLoop, headAddr_nil, if_pos rfl, if_pos rfl]
          | cons c rest =>
              have onward : Holds (m'.touched .read a.addr).memory ((pre ++ [a]) ++ c :: rest) := by
                simpa using merges.holds
              exact ih onward

theorem findGoodOrLast_eq {sz : Nat} (holds : Holds m.memory (pre ++ b :: post)) :
    findGoodOrLast os b.addr sz m = MemoryAllocator.findGoodOrLast os b.addr sz m := by
  have bNull := holds.wellFormed.nonnull (b := b) (by simp)
  rw [findGoodOrLast, MemoryAllocator.findGoodOrLast, if_neg bNull, if_neg bNull]
  exact searchLoop_eq holds

theorem blockSplittable_eq {query : Nat} (holds : Holds m.memory (pre ++ b :: post))
    (roomy : query + 41 < 2 ^ 64) :
    blockSplittable b.addr query m = MemoryAllocator.blockSplittable b.addr query m := by
  have bNull := holds.wellFormed.nonnull (b := b) (by simp)
  rw [blockSplittable, MemoryAllocator.blockSplittable, if_neg bNull, if_neg bNull,
    loadIsFree_bind, loadIsFree_bind]
  by_cases free : (header m.memory b.addr).isFree = true
  · rw [if_pos free, if_pos free, add_add_bind roomy, loadCapacity_bind]
  · rw [if_neg free, if_neg free]

/-- Only a block that is large enough is split, and no capacity comes near `2 ^ 64`. -/
theorem splitIfTooBig_eq {query : Nat} (holds : Holds m.memory (pre ++ b :: post))
    (free : b.isFree = true) (fits : query ≤ b.capacity) (roomy : b.capacity + 41 < 2 ^ 64) :
    splitIfTooBig os b.addr query m = MemoryAllocator.splitIfTooBig os b.addr query m := by
  apply bind_agree (blockSplittable_eq holds (by omega))
  intro split m' returned
  obtain ⟨rfl, merges⟩ := (blockSplittable_decides holds free fits roomy).of_returns returned
  by_cases splittable : b.Splittable query
  · have read := merges.holds
    have stop := read.wellFormed.stop_lt (b := b) (by simp)
    simp only [Block.stop, Block.size, contentsOffset] at stop
    have inside : b.addr + contentsOffset + query < 2 ^ 64 := by
      simp only [contentsOffset]
      omega
    have exact_rest : wrapSub b.capacity query = b.capacity - query :=
      wrapSub_eq (by omega) fits
    simp only [splittable, decide_true, if_true, contents, MemoryAllocator.contents,
      Nat.mod_add_mod]
    rw [add_add_bind inside, loadCapacity_bind, loadCapacity_bind, loadNext_bind, loadNext_bind]
    simp only [touched_memory, read.header_at]
    rw [sub_bind (by omega) fits]
    refine bind_agree (blockInit_eq ?_ ?_) fun _ _ _ => rfl
    · simp only [exact_rest]
      omega
    · simp only [Block.Splittable, contentsOffset, blockMinCapacity] at splittable
      simp only [exact_rest, contentsOffset]
      omega
  · simp only [splittable, decide_false, Bool.false_eq_true, if_false]

theorem tryMemallocExisting_eq {query : Nat} (holds : Holds m.memory (pre ++ b :: post))
    (roomy : Roomy (pre ++ b :: post)) :
    tryMemallocExisting os query b.addr m =
      MemoryAllocator.tryMemallocExisting os query b.addr m := by
  have spec := Fusion.search_spec (F := Block.fusion) (Block.fits query) b post
  apply bind_agree (findGoodOrLast_eq holds)
  intro r m' returned
  obtain ⟨rfl, merges⟩ := (findGoodOrLast_searches holds).of_returns returned
  cases result : Block.fusion.search (Block.fits query) b post with
  | exhausted before last => rfl
  | found before good after =>
      rw [result] at merges spec
      obtain ⟨free, fits⟩ := Block.fits_iff.mp spec.decides.1
      have room : good.capacity + 41 < 2 ^ 64 :=
        roomy _ merges.fuses good (by simp [SearchResult.list])
      have grouped : Holds m'.memory ((pre ++ before) ++ good :: after) := by
        simpa [SearchResult.list] using merges.holds
      simp only [report]
      exact bind_agree (splitIfTooBig_eq grouped free fits room) fun _ _ _ => rfl

theorem tryMemallocExisting_eq_null {query : Nat} :
    tryMemallocExisting os query null m =
      MemoryAllocator.tryMemallocExisting os query null m := by
  have checked : tryMemallocExisting os query null m = some (⟨.corrupted, null⟩, m) := rfl
  have wrapping : MemoryAllocator.tryMemallocExisting os query null m =
      some (⟨.corrupted, null⟩, m) := rfl
  rw [checked, wrapping]

theorem allocRegion_eq {hint query : Nat} :
    allocRegion os hint query m = MemoryAllocator.allocRegion os hint query m := by
  obtain ⟨large, fits⟩ := regionSize_bounds os.pageSize query
  have covered : ∀ mapped m', (blockInit os mapped ⟨regionSize os.pageSize query⟩ null) m' =
      MemoryAllocator.blockInit os mapped ⟨regionSize os.pageSize query⟩ null m' :=
    fun _ _ => blockInit_eq fits (le_trans (by decide) large)
  apply bind_agree rfl
  intro first m₁ _
  by_cases refused : first = mapFailed
  · rw [if_pos refused, if_pos refused]
    apply bind_agree rfl
    intro mapped m₂ _
    beta_reduce
    by_cases failed : mapped = mapFailed
    · rw [if_pos failed, if_pos failed]
    · rw [if_neg failed, if_neg failed]
      exact bind_agree (covered mapped m₂) fun _ _ _ => rfl
  · rw [if_neg refused, if_neg refused, pure_bind, pure_bind]
    beta_reduce
    rw [if_neg refused, if_neg refused]
    exact bind_agree (covered first m₁) fun _ _ _ => rfl

theorem growHeap_eq {before : List Block} {last : Block} {query : Nat}
    (heap : Heap m (before ++ [last])) :
    growHeap os last.addr query m = MemoryAllocator.growHeap os last.addr query m := by
  have holds := heap.holds
  have wf := holds.wellFormed
  have lastNull := wf.nonnull (b := last) (by simp)
  have after := contents_add_capacity (wf.stop_lt (b := last) (by simp))
  have reads : Ensures (MemoryAllocator.blockAfter last.addr) m fun stop m' =>
      stop = last.stop ∧ m' = m.touched .read last.addr := by
    simp only [MemoryAllocator.blockAfter, ensures_bind, ensures_loadCapacity, ensures_pure,
      holds.header_at, after, and_self]
  rw [growHeap, MemoryAllocator.growHeap, if_neg lastNull, if_neg lastNull]
  apply bind_agree (blockAfter_eq holds)
  intro hint m₁ returned
  obtain ⟨rfl, rfl⟩ := reads.of_returns returned
  apply bind_agree allocRegion_eq
  intro r m₁ returned
  by_cases apart : (regionIsInvalid r || !r.extends') = true
  · rw [if_pos apart, if_pos apart, pure_bind, pure_bind]
    beta_reduce
    rw [if_pos rfl, if_pos rfl]
  · rw [if_neg apart, if_neg apart]
    apply bind_agree rfl
    intro taken m₂ looked
    cases taken with
    | true => simp only [if_true]
    | false =>
        simp only [Bool.false_eq_true, if_false]
        apply bind_agree rfl
        intro _ m₃ stored
        cases asked : requestRegion (os.since m.calls) last.stop (regionSize os.pageSize query) with
        | mk region events =>
            obtain ⟨_, current, ⟨_, rfl⟩ | ⟨mapped, rfl, longer, linked⟩⟩ :=
              (allocRegion_prepares holds heap.tiled asked).of_returns returned
            · exact absurd rfl apart
            · have again : Merges m₁ (before ++ [last]) (m₁.touched .read last.addr)
                  (before ++ [last]) :=
                .of_reads [last.addr] current.holds rfl rfl rfl (by simp)
              have looks : Ensures ((fun isFree => !isFree) <$> loadIsFree last.addr) m₁
                  fun _ m' => m' = m₁.touched .read last.addr := by
                simp only [ensures_map, ensures_loadIsFree]
              obtain rfl := looks.of_returns looked
              obtain ⟨_, evolves⟩ := (storeNext_appends (current.trans again.evolves) longer
                linked).of_returns stored
              exact bind_agree (tryMergeWithNext_eq evolves.holds) fun _ _ _ => rfl

theorem memalloc_eq {blocks : List Block} {query : Nat} (heap : Heap m blocks) :
    memalloc os query heapStart m = MemoryAllocator.memalloc os query heapStart m := by
  have large := blockMinCapacity_le query
  have first : tryMemallocExisting os (sizeMax query blockMinCapacity) heapStart m =
      MemoryAllocator.tryMemallocExisting os (sizeMax query blockMinCapacity) heapStart m := by
    obtain ⟨b, rest, rfl, start, whole⟩ := heap.head
    rw [← start]
    exact tryMemallocExisting_eq whole.holds whole.roomy
  apply bind_agree first
  intro r m₁ returned
  obtain ⟨type, addr⟩ := r
  cases type with
  | foundGoodBlock => rfl
  | corrupted => rfl
  | reachedEndNotFound =>
      obtain ⟨before, last, _, rfl, _, heap⟩ := heap.search_fails large returned
      apply bind_agree (growHeap_eq heap)
      intro g m₂ grew
      cases asked : requestRegion (os.since m₁.calls) last.stop
          (regionSize os.pageSize (sizeMax query blockMinCapacity)) with
      | mk region events =>
          obtain ⟨_, ⟨_, rfl, _⟩ | ⟨_, front, block, _, rfl, heap⟩⟩ :=
            (heap.grows asked).of_returns grew
          · exact bind_agree tryMemallocExisting_eq_null fun _ _ _ => rfl
          · exact bind_agree (tryMemallocExisting_eq heap.holds heap.roomy) fun _ _ _ => rfl

end Checked

theorem report_among (r : SearchResult Block) : ∃ c ∈ r.list, c.addr = (report r).block := by
  cases r with
  | found before good after => exact ⟨good, by simp [SearchResult.list], rfl⟩
  | exhausted before last => exact ⟨last, by simp [SearchResult.list], rfl⟩

theorem tryMemallocExisting_fits {query : Nat} (holds : Holds m.memory (pre ++ b :: post))
    (large : blockMinCapacity ≤ query) (roomy : Roomy (pre ++ b :: post)) :
    Ensures (tryMemallocExisting os query b.addr) m fun r _ =>
      r.block + contentsOffset < 2 ^ 64 := by
  refine (tryMemallocExisting_serves os holds large roomy).mono ?_
  rintro r _ ⟨rfl, _⟩
  have spec := Fusion.search_spec (F := Block.fusion) (Block.fits query) b post
  obtain ⟨c, among, addr⟩ := report_among (Block.fusion.search (Block.fits query) b post)
  obtain ⟨a, member, same⟩ := addr_of_fuses spec.fuses c among
  rw [← addr, ← same]
  exact contents_fit holds.wellFormed (List.mem_append_right pre member)

/-- The block handed out begins so low that its contents have an address. -/
theorem memalloc_fits {blocks : List Block} {query : Nat} (heap : Heap m blocks) :
    Ensures (memalloc os query heapStart) m fun addr _ => addr + contentsOffset < 2 ^ 64 := by
  have large := blockMinCapacity_le query
  have first : Ensures (tryMemallocExisting os (sizeMax query blockMinCapacity) heapStart) m
      fun r _ => r.block + contentsOffset < 2 ^ 64 := by
    obtain ⟨b, rest, rfl, start, whole⟩ := heap.head
    rw [← start]
    exact tryMemallocExisting_fits whole.holds large whole.roomy
  obtain ⟨⟨type, addr⟩, m₁, returned, fits⟩ := first
  refine ensures_bind.mpr ⟨_, m₁, returned, ?_⟩
  cases type with
  | foundGoodBlock => exact ensures_pure.mpr fits
  | corrupted => exact ensures_pure.mpr (by decide)
  | reachedEndNotFound =>
      obtain ⟨before, last, _, rfl, _, heap⟩ := heap.search_fails large returned
      cases asked : requestRegion (os.since m₁.calls) last.stop
          (regionSize os.pageSize (sizeMax query blockMinCapacity)) with
      | mk region events =>
          apply Ensures.bind (heap.grows asked)
          rintro g m₂ ⟨_, ⟨_, rfl, _⟩ | ⟨_, front, block, _, rfl, heap⟩⟩
          · rw [ensures_bind, tryMemallocExisting_null]
            exact ensures_pure.mpr (by decide)
          · apply Ensures.bind (tryMemallocExisting_fits heap.holds large heap.roomy)
            exact fun r _ fits => ensures_pure.mpr fits

namespace Checked

theorem malloc_eq {blocks : List Block} {query : Nat} (heap : Heap m blocks) :
    malloc os query m = MemoryAllocator.malloc os query m := by
  apply bind_agree (memalloc_eq heap)
  intro addr m' returned
  have fits := (memalloc_fits heap).of_returns returned
  by_cases none : addr = null
  · rw [if_pos none, if_pos none]
  · rw [if_neg none, if_neg none]
    exact add_eq fits

theorem free_eq (holds : Holds m.memory (pre ++ b :: post)) :
    free os b.contents m = MemoryAllocator.free os b.contents m := by
  have fits := contents_fit holds.wellFormed (b := b) (by simp)
  have begin' : MemoryAllocator.blockGetHeader b.contents = b.addr :=
    blockGetHeader_contents holds.wellFormed (b := b) (by simp)
  have read : wrapSub b.contents contentsOffset = b.addr := begin'
  have marked : Holds (m.released b.addr).memory (pre ++ b.release :: post) := holds.storeIsFree
  rw [free, MemoryAllocator.free, if_neg b.contents_ne_null, if_neg b.contents_ne_null,
    blockGetHeader, begin', sub_bind (x := b.contents) fits (Nat.le_add_left _ _), read]
  apply bind_agree rfl
  intro _ m' stored
  cases stored
  exact mergeLoop_eq (b := b.release) marked

end Checked

/-- Alone the guard of a split does wrap, and then passes a block that is far too small. -/
theorem blockSplittable_wraps {block query : Nat} (nonnull : block ≠ null)
    (free : (header m.memory block).isFree = true) (bound : query < 2 ^ 64)
    (huge : 2 ^ 64 ≤ query + 41) :
    Checked.blockSplittable block query m = none ∧
      Ensures (blockSplittable block query) m fun split _ =>
        split = decide (query + 41 - 2 ^ 64 ≤ (header m.memory block).capacity.bytes) := by
  constructor
  · rw [Checked.blockSplittable, if_neg nonnull, loadIsFree_bind, if_pos free]
    by_cases inner : query + contentsOffset < 2 ^ 64
    · rw [add_bind inner, Nat.mod_eq_of_lt inner]
      exact add_bind_none (by simp only [contentsOffset, blockMinCapacity]; omega) _
    · exact add_bind_none (Nat.not_lt.mp inner) _
  · have wrapped : (query + contentsOffset + blockMinCapacity) % 2 ^ 64 = query + 41 - 2 ^ 64 := by
      simp only [contentsOffset, blockMinCapacity]
      omega
    simp only [blockSplittable, if_neg nonnull, ensures_bind, ensures_loadIsFree, free, if_true,
      ensures_loadCapacity, ensures_pure, touched_memory, wrapped]
    rfl

end

/-- In every reachable state any request, however large, and any call of `free` compute no sum
and no difference of block sizes and addresses that is not a `size_t`: with checked arithmetic
the code returns what it returns with wrapping arithmetic. -/
theorem arithmetic_never_wraps {os : Platform} {s : System} (reachable : Reachable os s) :
    (∀ query, (Checked.malloc os query s.machine).isSome ∧
      Checked.malloc os query s.machine = malloc os query s.machine) ∧
    ∀ a ∈ s.live, (Checked.free os a.pointer s.machine).isSome ∧
      Checked.free os a.pointer s.machine = free os a.pointer s.machine := by
  obtain ⟨blocks, invariant⟩ := reachable.invariant
  constructor
  · intro query
    have same : Checked.malloc os query s.machine = malloc os query s.machine :=
      Checked.malloc_eq invariant.heap
    obtain ⟨p, m', returned, _⟩ := malloc_refines os query invariant.heap
    rw [same, returned]
    exact ⟨rfl, rfl⟩
  · intro a live
    obtain ⟨b, taken, serves⟩ := invariant.owned.served a live
    obtain ⟨pre, post, rfl⟩ := List.append_of_mem (mem_takens.mp taken).1
    have same : Checked.free os b.contents s.machine = free os b.contents s.machine :=
      Checked.free_eq invariant.heap.holds
    obtain ⟨_, m', returned, _⟩ := free_absorbs os invariant.heap.holds
    rw [← serves.pointer, same, returned]
    exact ⟨rfl, rfl⟩

theorem arithmetic_never_wraps_of_huge : ∃ s,
    session granting 8175 [.malloc 100] = some s ∧
    Checked.malloc granting (2 ^ 64 - 1) s.machine = malloc granting (2 ^ 64 - 1) s.machine ∧
    (Checked.free granting 67371025 s.machine).isSome := by
  have started : (session granting 8175 [.malloc 100]).map System.live =
      some [⟨67371025, 100⟩] := by
    decide +kernel
  obtain ⟨s, started, live⟩ := Option.map_eq_some_iff.mp started
  obtain ⟨requests, frees⟩ :=
    arithmetic_never_wraps (session_reachable (by decide) (by decide) started)
  have among : ⟨67371025, 100⟩ ∈ s.live := by simp [live]
  exact ⟨s, started, (requests _).2, (frees _ among).1⟩

end MemoryAllocator
