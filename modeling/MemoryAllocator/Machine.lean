import MemoryAllocator.Foundation.Bytes
import MemoryAllocator.Foundation.Spans

/-! The machine the allocator runs on: one byte memory that headers and payloads share, the
`mmap` calls answered so far, and a record of the headers the code has touched. Sizes and
addresses are numbers below `2 ^ 64`; the code wraps where C arithmetic wraps. -/
namespace MemoryAllocator
open Foundation

def null : Nat := 0

def mapFailed : Nat := 2 ^ 64 - 1

def heapStart : Nat := 0x04040000

def regionMinSize : Nat := 2 * 4096

def blockMinCapacity : Nat := 24

/-- Subtraction of `size_t` values and of a pointer and an offset. -/
def wrapSub (x y : Nat) : Nat := (x + 2 ^ 64 - y) % 2 ^ 64

/-- `offsetof(struct block_header, contents)`; the structure itself takes 24 bytes. -/
def contentsOffset : Nat := 17

structure BlockCapacity where
  bytes : Nat
  deriving DecidableEq, Repr

structure BlockSize where
  bytes : Nat
  deriving DecidableEq, Repr

/-- `struct block_header` without its flexible `contents`. -/
structure BlockHeader where
  next : Nat
  capacity : BlockCapacity
  isFree : Bool
  deriving DecidableEq, Repr

def sizeFromCapacity (cap : BlockCapacity) : BlockSize := ⟨(cap.bytes + contentsOffset) % 2 ^ 64⟩

def capacityFromSize (sz : BlockSize) : BlockCapacity := ⟨wrapSub sz.bytes contentsOffset⟩

/-- Byte layout: `next` at offset 0, `capacity` at 8, `is_free` at 16, contents at 17. -/
def header (memory : Memory) (block : Nat) : BlockHeader where
  next := readWord 8 memory block
  capacity := ⟨readWord 8 memory (block + 8)⟩
  isFree := memory (block + 16) != 0

def flagByte (flag : Bool) : UInt8 := if flag then 1 else 0

/-- The 24 bytes of a header, its seven bytes of padding included. -/
def headerBytes (h : BlockHeader) (padding : Fin 7 → UInt8) : List UInt8 :=
  leBytes 8 h.next ++ (leBytes 8 h.capacity.bytes ++ (flagByte h.isFree :: List.ofFn padding))

@[simp] theorem headerBytes_length (h : BlockHeader) (padding : Fin 7 → UInt8) :
    (headerBytes h padding).length = 24 := by
  simp [headerBytes]

theorem header_congr {memory memory' : Memory} {block : Nat}
    (same : ∀ x, block ≤ x → x < block + contentsOffset → memory' x = memory x) :
    header memory' block = header memory block := by
  simp only [contentsOffset] at same
  have next : readWord 8 memory' block = readWord 8 memory block :=
    readWord_congr fun x lower upper => same x lower (by omega)
  have capacity : readWord 8 memory' (block + 8) = readWord 8 memory (block + 8) :=
    readWord_congr fun x lower upper => same x (by omega) (by omega)
  have flag : memory' (block + 16) = memory (block + 16) := same _ (by omega) (by omega)
  simp only [header, next, capacity, flag]

theorem flagByte_ne_zero (flag : Bool) : (flagByte flag != 0) = flag := by
  cases flag <;> rfl

theorem header_writeBytes_headerBytes {memory : Memory} {block : Nat} {h : BlockHeader}
    {padding : Fin 7 → UInt8} (nextFits : h.next < 2 ^ 64)
    (capacityFits : h.capacity.bytes < 2 ^ 64) :
    header (writeBytes memory block (headerBytes h padding)) block = h := by
  have parts : writeBytes memory block (headerBytes h padding) =
      writeBytes (writeWord 8 (writeWord 8 memory block h.next) (block + 8) h.capacity.bytes)
        (block + 16) (flagByte h.isFree :: List.ofFn padding) := by
    simp only [headerBytes, writeWord, writeBytes_append, leBytes_length]
  have tailLength : (flagByte h.isFree :: List.ofFn padding).length = 8 := by simp
  have flag : writeBytes memory block (headerBytes h padding) (block + 16) = flagByte h.isFree := by
    rw [parts, writeBytes_head]
  have capacity : readWord 8 (writeBytes memory block (headerBytes h padding)) (block + 8) =
      h.capacity.bytes := by
    rw [parts, readWord_congr (fun x _ upper => writeBytes_outside (by omega))]
    exact readWord_writeWord_self capacityFits
  have next : readWord 8 (writeBytes memory block (headerBytes h padding)) block = h.next := by
    rw [parts, readWord_congr (fun x _ upper => writeBytes_outside (by omega)),
      readWord_congr (fun x _ upper => writeWord_outside (by omega))]
    exact readWord_writeWord_self nextFits
  simp only [header, next, capacity, flag, flagByte_ne_zero]

theorem header_writeNext {memory : Memory} {block value : Nat} (fits : value < 2 ^ 64) :
    header (writeWord 8 memory block value) block = { header memory block with next := value } := by
  have next : readWord 8 (writeWord 8 memory block value) block = value :=
    readWord_writeWord_self fits
  have capacity : readWord 8 (writeWord 8 memory block value) (block + 8) =
      readWord 8 memory (block + 8) :=
    readWord_congr fun x lower _ => writeWord_outside (by omega)
  have flag : writeWord 8 memory block value (block + 16) = memory (block + 16) :=
    writeWord_outside (by omega)
  simp only [header, next, capacity, flag]

theorem header_writeCapacity {memory : Memory} {block : Nat} {value : Nat}
    (fits : value < 2 ^ 64) : header (writeWord 8 memory (block + 8) value) block =
      { header memory block with capacity := ⟨value⟩ } := by
  have next : readWord 8 (writeWord 8 memory (block + 8) value) block = readWord 8 memory block :=
    readWord_congr fun x _ upper => writeWord_outside (by omega)
  have capacity : readWord 8 (writeWord 8 memory (block + 8) value) (block + 8) = value :=
    readWord_writeWord_self fits
  have flag : writeWord 8 memory (block + 8) value (block + 16) = memory (block + 16) :=
    writeWord_outside (by omega)
  simp only [header, next, capacity, flag]

theorem header_writeIsFree {memory : Memory} {block : Nat} {flag : Bool} :
    header (writeBytes memory (block + 16) [flagByte flag]) block =
      { header memory block with isFree := flag } := by
  have next : readWord 8 (writeBytes memory (block + 16) [flagByte flag]) block =
      readWord 8 memory block :=
    readWord_congr fun x _ upper => writeBytes_outside (by omega)
  have capacity : readWord 8 (writeBytes memory (block + 16) [flagByte flag]) (block + 8) =
      readWord 8 memory (block + 8) :=
    readWord_congr fun x _ upper => writeBytes_outside (by omega)
  simp only [header, next, capacity, writeBytes_head, flagByte_ne_zero]

structure MmapCall where
  addr : Nat
  length : Nat
  prot : Nat
  flags : Nat
  fd : Int
  offset : Nat
  deriving DecidableEq, Repr

structure MmapEvent where
  call : MmapCall
  answer : Nat
  deriving DecidableEq, Repr

def MmapEvent.region (e : MmapEvent) : Span := ⟨e.answer, e.call.length⟩

/-- The regions mapped by a history of calls, in mapping order. -/
def regions (calls : List MmapEvent) : List Span :=
  (calls.filter fun e => e.answer != mapFailed).map MmapEvent.region

@[simp] theorem regions_nil : regions [] = [] := rfl

theorem regions_cons (e : MmapEvent) (calls : List MmapEvent) :
    regions (e :: calls) =
      if e.answer = mapFailed then regions calls else e.region :: regions calls := by
  by_cases failed : e.answer = mapFailed <;> simp [regions, failed]

@[simp] theorem regions_append (calls later : List MmapEvent) :
    regions (calls ++ later) = regions calls ++ regions later := by
  simp [regions]

/-- What `mmap` promises: failure, or a page-aligned range that is not at address zero, ends
below `2 ^ 64` and meets no range mapped before. A hint binds it to nothing. -/
def LawfulAnswer (pageSize : Nat) (past : List MmapEvent) (call : MmapCall) (answer : Nat) : Prop :=
  answer = mapFailed ∨
    (answer ≠ null ∧ pageSize ∣ answer ∧ answer + call.length < 2 ^ 64 ∧
      ∀ r ∈ regions past, Span.Apart r ⟨answer, call.length⟩)

inductive AccessKind where
  | read
  | write
  | init
  deriving DecidableEq, Repr

/-- One touch of a header through a block pointer, with the memory it met. -/
structure Access where
  kind : AccessKind
  header : Nat
  memory : Memory

structure Machine where
  memory : Memory
  calls : List MmapEvent
  accesses : List Access

/-- `getpagesize`, `mmap`, and the padding bytes a structure assignment leaves behind: any
page size, any lawful answers, any padding at all. -/
structure Platform where
  pageSize : Nat
  mmap : List MmapEvent → MmapCall → Nat
  padding : Machine → Nat → Fin 7 → UInt8
  pageSize_pow : ∃ k < 31, pageSize = 2 ^ k
  mmap_lawful : ∀ past call, LawfulAnswer pageSize past call (mmap past call)

theorem Platform.pageSize_pos (os : Platform) : 0 < os.pageSize := by
  obtain ⟨k, _, same⟩ := os.pageSize_pow
  rw [same]
  exact Nat.two_pow_pos k

/-- The operating system's further answers after a history of calls. -/
def Platform.since (os : Platform) (calls later : List MmapEvent) (call : MmapCall) : Nat :=
  os.mmap (calls ++ later) call

end MemoryAllocator
