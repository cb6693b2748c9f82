import MemoryAllocator.Machine
import MemoryAllocator.Foundation.Effect

/-! Header access, page arithmetic and regions, as the first half of `mem.c` has them. -/
namespace MemoryAllocator
open Foundation

/-- C code: it reads and changes the machine, and returns unless one of its loops does not. -/
abbrev Exec := StateT Machine Option

def Machine.touched (m : Machine) (kind : AccessKind) (block : Nat) : Machine :=
  { m with accesses := m.accesses ++ [⟨kind, block, m.memory⟩] }

def deref (block : Nat) : Exec BlockHeader := fun m =>
  some (header m.memory block, m.touched .read block)

def loadNext (block : Nat) : Exec Nat := do
  return (← deref block).next

def loadCapacity (block : Nat) : Exec BlockCapacity := do
  return (← deref block).capacity

def loadIsFree (block : Nat) : Exec Bool := do
  return (← deref block).isFree

def storeNext (block next : Nat) : Exec Unit := fun m =>
  some ((), { m.touched .write block with memory := writeWord 8 m.memory block next })

def storeCapacity (block : Nat) (capacity : BlockCapacity) : Exec Unit := fun m =>
  some ((), { m.touched .write block with
    memory := writeWord 8 m.memory (block + 8) capacity.bytes })

def storeIsFree (block : Nat) (isFree : Bool) : Exec Unit := fun m =>
  some ((), { m.touched .write block with
    memory := writeBytes m.memory (block + 16) [flagByte isFree] })

/-- The address of `block->contents`. -/
def contents (block : Nat) : Nat := (block + contentsOffset) % 2 ^ 64

def blockIsBigEnough (query : Nat) (block : Nat) : Exec Bool := do
  return decide ((← loadCapacity block).bytes ≥ query)

def sizeMax (x y : Nat) : Nat := if x ≥ y then x else y

def pagesCount (pageSize mem : Nat) : Nat :=
  (mem / pageSize + (if mem % pageSize > 0 then 1 else 0)) % 2 ^ 64

def roundPages (pageSize mem : Nat) : Nat := (pageSize * pagesCount pageSize mem) % 2 ^ 64

def regionActualSize (pageSize query : Nat) : Nat :=
  sizeMax (roundPages pageSize query) regionMinSize

/-- The whole structure is assigned at once, so its padding bytes are overwritten too. -/
def blockInit (os : Platform) (addr : Nat) (blockSz : BlockSize) (next : Nat) : Exec Unit :=
  fun m => some ((), { m.touched .init addr with
    memory := writeBytes m.memory addr
      (headerBytes ⟨next, capacityFromSize blockSz, true⟩ (os.padding m addr)) })

structure Region where
  addr : Nat
  size : Nat
  extends' : Bool
  deriving DecidableEq, Repr

def regionInvalid : Region := ⟨null, 0, false⟩

def regionIsInvalid (r : Region) : Bool := r.addr == null

def protReadWrite : Nat := 0x1 ||| 0x2

def mapPrivateAnonymous : Nat := 0x02 ||| 0x20

def mapFixedNoreplace : Nat := 0x100000

def mapPagesCall (addr : Nat) (length : Nat) (additionalFlags : Nat) : MmapCall :=
  ⟨addr, length, protReadWrite, mapPrivateAnonymous ||| additionalFlags, -1, 0⟩

/-- `mmap`: the answer is recorded, and an anonymous mapping shows zero bytes. -/
def mmap (os : Platform) (call : MmapCall) : Exec Nat := fun m =>
  let answer := os.mmap m.calls call
  some (answer, { m with
    calls := m.calls ++ [⟨call, answer⟩]
    memory := if answer = mapFailed then m.memory else fillZero m.memory answer call.length })

def mapPages (os : Platform) (addr : Nat) (length : Nat) (additionalFlags : Nat) : Exec Nat :=
  mmap os (mapPagesCall addr length additionalFlags)

def allocRegion (os : Platform) (addr : Nat) (query : Nat) : Exec Region := do
  let size := regionActualSize os.pageSize (sizeFromCapacity ⟨query⟩).bytes
  let first ← mapPages os addr size mapFixedNoreplace
  let mapped ← if first = mapFailed then mapPages os addr size 0 else pure first
  if mapped = mapFailed then
    return regionInvalid
  else
    blockInit os mapped ⟨size⟩ null
    return ⟨mapped, size, mapped == addr⟩

def heapInit (os : Platform) (initial : Nat) : Exec Nat := do
  let region ← allocRegion os heapStart initial
  return if regionIsInvalid region then null else region.addr

variable {m : Machine} {block : Nat}

@[simp] theorem touched_memory (kind : AccessKind) : (m.touched kind block).memory = m.memory := rfl

@[simp] theorem touched_calls (kind : AccessKind) : (m.touched kind block).calls = m.calls := rfl

@[simp] theorem touched_accesses (kind : AccessKind) :
    (m.touched kind block).accesses = m.accesses ++ [⟨kind, block, m.memory⟩] := rfl

@[simp] theorem ensures_loadNext {Q : Nat → Machine → Prop} :
    Ensures (loadNext block) m Q ↔ Q (header m.memory block).next (m.touched .read block) :=
  ensures_of_returns rfl

@[simp] theorem ensures_loadCapacity {Q : BlockCapacity → Machine → Prop} :
    Ensures (loadCapacity block) m Q ↔
      Q (header m.memory block).capacity (m.touched .read block) :=
  ensures_of_returns rfl

@[simp] theorem ensures_loadIsFree {Q : Bool → Machine → Prop} :
    Ensures (loadIsFree block) m Q ↔ Q (header m.memory block).isFree (m.touched .read block) :=
  ensures_of_returns rfl

@[simp] theorem ensures_storeNext {next : Nat} {Q : Unit → Machine → Prop} :
    Ensures (storeNext block next) m Q ↔
      Q () { m.touched .write block with memory := writeWord 8 m.memory block next } :=
  ensures_of_returns rfl

@[simp] theorem ensures_storeCapacity {capacity : BlockCapacity} {Q : Unit → Machine → Prop} :
    Ensures (storeCapacity block capacity) m Q ↔
      Q () { m.touched .write block with
        memory := writeWord 8 m.memory (block + 8) capacity.bytes } :=
  ensures_of_returns rfl

@[simp] theorem ensures_storeIsFree {isFree : Bool} {Q : Unit → Machine → Prop} :
    Ensures (storeIsFree block isFree) m Q ↔
      Q () { m.touched .write block with
        memory := writeBytes m.memory (block + 16) [flagByte isFree] } :=
  ensures_of_returns rfl

@[simp] theorem ensures_blockInit {os : Platform} {size : BlockSize} {next : Nat}
    {Q : Unit → Machine → Prop} : Ensures (blockInit os block size next) m Q ↔
      Q () { m.touched .init block with
        memory := writeBytes m.memory block
          (headerBytes ⟨next, capacityFromSize size, true⟩ (os.padding m block)) } :=
  ensures_of_returns rfl

end MemoryAllocator
