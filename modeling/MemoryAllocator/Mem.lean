import MemoryAllocator.Region

/-! The block list operations of `mem.c`: splitting, merging, the search, growth, and the
entry points. Loops carry a bound on their rounds; a loop that would pass the bound does not
return, which the type `Exec` keeps apart from every result. -/
namespace MemoryAllocator
open Foundation

/-- More rounds than there are addresses, so more than any chain without a cycle has blocks. -/
def loopBound : Nat := 2 ^ 64

def blockSplittable (block query : Nat) : Exec Bool := do
  if block = null then
    return false
  else if ← loadIsFree block then
    return decide ((query + contentsOffset + blockMinCapacity) % 2 ^ 64 ≤
      (← loadCapacity block).bytes)
  else
    return false

def splitIfTooBig (os : Platform) (block query : Nat) : Exec Bool := do
  if ← blockSplittable block query then
    let nextBlockAddress := (contents block + query) % 2 ^ 64
    let capacity ← loadCapacity block
    let next ← loadNext block
    blockInit os nextBlockAddress ⟨wrapSub capacity.bytes query⟩ next
    storeCapacity block ⟨query⟩
    storeNext block nextBlockAddress
    return true
  else
    return false

def blockAfter (block : Nat) : Exec Nat := do
  return (contents block + (← loadCapacity block).bytes) % 2 ^ 64

def blocksContinuous (fst snd : Nat) : Exec Bool := do
  return snd == (← blockAfter fst)

def mergeable (fst snd : Nat) : Exec Bool := do
  if ← loadIsFree fst then
    if ← loadIsFree snd then
      blocksContinuous fst snd
    else
      return false
  else
    return false

def tryMergeWithNext (os : Platform) (block : Nat) : Exec Bool := do
  if block = null then
    return false
  else if (← loadNext block) = null then
    return false
  else if ← mergeable block (← loadNext block) then
    let capacity ← loadCapacity block
    let nextCapacity ← loadCapacity (← loadNext block)
    let nextNext ← loadNext (← loadNext block)
    blockInit os block
      ⟨((sizeFromCapacity capacity).bytes + (sizeFromCapacity nextCapacity).bytes) % 2 ^ 64⟩
      nextNext
    return true
  else
    return false

/-- `while (try_merge_with_next(block)) {}` -/
def mergeLoop (os : Platform) : Nat → Nat → Exec Unit
  | 0, _ => fun _ => none
  | rounds + 1, block => do
      if ← tryMergeWithNext os block then
        mergeLoop os rounds block
      else
        return ()

inductive BlockSearchType where
  | foundGoodBlock
  | reachedEndNotFound
  | corrupted
  deriving DecidableEq, Repr

structure BlockSearchResult where
  type : BlockSearchType
  block : Nat
  deriving DecidableEq, Repr

/-- One visit of the search: a free block is first merged with what follows it. -/
def visitBlock (os : Platform) (sz block : Nat) : Exec Bool := do
  if ← loadIsFree block then
    mergeLoop os loopBound block
    blockIsBigEnough sz block
  else
    return false

/-- The outer loop of `find_good_or_last`; `last` is the block of the round before. -/
def searchLoop (os : Platform) (sz : Nat) : Nat → Nat → Nat → Exec BlockSearchResult
  | 0, _, _ => fun _ => none
  | rounds + 1, last, block => do
      if block = null then
        return ⟨.reachedEndNotFound, last⟩
      else if ← visitBlock os sz block then
        return ⟨.foundGoodBlock, block⟩
      else
        searchLoop os sz rounds block (← loadNext block)

def findGoodOrLast (os : Platform) (block sz : Nat) : Exec BlockSearchResult := do
  if block = null then
    return ⟨.corrupted, block⟩
  else
    searchLoop os sz loopBound block block

def tryMemallocExisting (os : Platform) (query block : Nat) : Exec BlockSearchResult := do
  let result ← findGoodOrLast os block query
  if result.type = .foundGoodBlock then
    let _ ← splitIfTooBig os result.block query
    storeIsFree result.block false
    return result
  else
    return result

def growHeap (os : Platform) (last query : Nat) : Exec Nat := do
  if last = null then
    return null
  else
    let region ← allocRegion os (← blockAfter last) query
    -- the block of `last` is read only when the region is valid and extends the heap
    let apart ← if regionIsInvalid region || !region.extends' then pure true
      else (fun isFree => !isFree) <$> loadIsFree last
    if apart then
      storeNext last region.addr
      return region.addr
    else
      storeNext last region.addr
      if ← tryMergeWithNext os last then
        return last
      else
        loadNext last

/-- The result of the second search is used whatever its type is. -/
def memalloc (os : Platform) (query heapStart : Nat) : Exec Nat := do
  let query := sizeMax query blockMinCapacity
  let result ← tryMemallocExisting os query heapStart
  match result.type with
  | .reachedEndNotFound =>
      let grown ← growHeap os result.block query
      let again ← tryMemallocExisting os query grown
      return again.block
  | .foundGoodBlock => return result.block
  | .corrupted => return null

/-- `_malloc` -/
def malloc (os : Platform) (query : Nat) : Exec Nat := do
  let query := sizeMax query blockMinCapacity
  let addr ← memalloc os query heapStart
  return if addr = null then null else contents addr

def blockGetHeader (contents : Nat) : Nat := wrapSub contents contentsOffset

/-- `_free` -/
def free (os : Platform) (mem : Nat) : Exec Unit := do
  if mem = null then
    return ()
  else
    storeIsFree (blockGetHeader mem) true
    mergeLoop os loopBound (blockGetHeader mem)

end MemoryAllocator
