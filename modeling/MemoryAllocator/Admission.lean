import MemoryAllocator.ListAllocator
import MemoryAllocator.Represents
import MemoryAllocator.Foundation.Rounding

/-! Which requests the region arithmetic serves: those whose size, rounded up to whole pages,
is a `size_t`. For the others no block of a heap is large enough either. -/
namespace MemoryAllocator
open Foundation

/-- The request, with its header and rounded up to whole pages, stays below `2 ^ 64`. -/
def Admissible (pageSize query : Nat) : Prop :=
  roundUp pageSize (max query blockMinCapacity + contentsOffset) < 2 ^ 64

instance (pageSize query : Nat) : Decidable (Admissible pageSize query) :=
  inferInstanceAs (Decidable (_ < _))

variable {pageSize query : Nat}

theorem pagesCount_eq (positive : 0 < pageSize) {mem : Nat} (fits : mem < 2 ^ 64) :
    pagesCount pageSize mem = mem / pageSize + if mem % pageSize > 0 then 1 else 0 := by
  apply Nat.mod_eq_of_lt
  split
  · rename_i rest
    -- with a remainder the page is larger than a byte, so the quotient is at most half
    have large : 2 ≤ pageSize := by
      by_contra small
      obtain rfl : pageSize = 1 := by omega
      simp [Nat.mod_one] at rest
    have half : mem / pageSize ≤ mem / 2 := Nat.div_le_div_left large (by decide)
    omega
  · have whole := Nat.div_le_self mem pageSize
    omega

theorem roundPages_eq (positive : 0 < pageSize) {mem : Nat} (fits : roundUp pageSize mem < 2 ^ 64) :
    roundPages pageSize mem = roundUp pageSize mem := by
  have below := le_roundUp positive mem
  rw [roundPages, pagesCount_eq positive (by omega), mul_units positive, Nat.mod_eq_of_lt fits]

theorem regionSize_eq (positive : 0 < pageSize)
    (fits : roundUp pageSize (query + contentsOffset) < 2 ^ 64) :
    regionSize pageSize query = max (roundUp pageSize (query + contentsOffset)) regionMinSize := by
  have below := le_roundUp positive (query + contentsOffset)
  have exact_size : (query + contentsOffset) % 2 ^ 64 = query + contentsOffset :=
    Nat.mod_eq_of_lt (by omega)
  simp only [regionSize, regionActualSize, sizeFromCapacity, exact_size,
    roundPages_eq positive fits, sizeMax]
  split <;> omega

theorem freshBlock_serves (positive : 0 < pageSize)
    (fits : roundUp pageSize (query + contentsOffset) < 2 ^ 64) (region : Nat) :
    query ≤ (freshBlock region (regionSize pageSize query)).capacity := by
  have below := le_roundUp positive (query + contentsOffset)
  simp only [freshBlock, regionSize_eq positive fits]
  omega

theorem growth_serves {before front : List Block} {last fresh block : Block}
    (large : query ≤ fresh.capacity) (grown : growth before last fresh = (front, block)) :
    query ≤ block.capacity := by
  unfold growth at grown
  split at grown
  · obtain ⟨rfl, rfl⟩ := Prod.mk.inj grown
    simp only [Block.fuse, Block.size]
    omega
  · obtain ⟨rfl, rfl⟩ := Prod.mk.inj grown
    exact large

/-- Past the limit no block that begins behind the first page is large enough. -/
theorem capacity_lt_of_not_fits (positive : 0 < pageSize)
    (wraps : ¬ roundUp pageSize (query + contentsOffset) < 2 ^ 64) {b : Block}
    (behind : pageSize ≤ b.addr) (bound : b.stop < 2 ^ 64) : b.capacity < query := by
  have rounded := roundUp_lt positive (query + contentsOffset)
  simp only [Block.stop, Block.size] at bound
  omega

end MemoryAllocator
