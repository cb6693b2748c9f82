import MemoryAllocator.Growing
import MemoryAllocator.Admission

/-! How large a region is: the least whole number of pages that holds the request with its
header and is not below the minimum, up to the limit where the rounding wraps. -/
namespace MemoryAllocator
open Foundation

variable {pageSize query : Nat}

theorem page_dvd_or_le (power : ∃ k, pageSize = 2 ^ k) :
    pageSize ∣ regionMinSize ∨ regionMinSize ≤ pageSize := by
  obtain ⟨k, rfl⟩ := power
  have minimum : regionMinSize = 2 ^ 13 := rfl
  rw [minimum]
  rcases Nat.le_total k 13 with small | large
  · exact .inl (Nat.pow_dvd_pow 2 small)
  · exact .inr (Nat.pow_le_pow_right (by decide) large)

theorem regionSize_isLeast (power : ∃ k, pageSize = 2 ^ k)
    (fits : roundUp pageSize (query + contentsOffset) < 2 ^ 64) :
    IsLeast {n | pageSize ∣ n ∧ max (query + contentsOffset) regionMinSize ≤ n}
      (regionSize pageSize query) := by
  have positive : 0 < pageSize := by
    obtain ⟨k, rfl⟩ := power
    exact Nat.two_pow_pos k
  rw [regionSize_eq positive fits]
  rcases page_dvd_or_le power with whole | large
  · exact max_roundUp_isLeast positive (query + contentsOffset) whole
  · -- one page reaches the minimum, and a region has at least one
    obtain ⟨⟨divides, enough⟩, least⟩ := roundUp_isLeast positive (query + contentsOffset)
    have onePage : pageSize ≤ roundUp pageSize (query + contentsOffset) := by
      refine Nat.le_of_dvd (lt_of_lt_of_le ?_ enough) divides
      simp only [contentsOffset]
      omega
    rw [max_eq_left (large.trans onePage)]
    refine ⟨⟨divides, max_le enough (large.trans onePage)⟩, ?_⟩
    rintro n ⟨divides', enough'⟩
    exact least ⟨divides', (le_max_left _ _).trans enough'⟩

theorem roundUp_fits (positive : 0 < pageSize)
    (limit : query + contentsOffset ≤ 2 ^ 64 - pageSize) (bound : pageSize < 2 ^ 64) :
    roundUp pageSize (query + contentsOffset) < 2 ^ 64 := by
  have rounded := roundUp_lt positive (query + contentsOffset)
  omega

/-- The region obtained, if one was: a free block that holds the request and covers exactly the
whole pages that were mapped. -/
structure Covered (m m' : Machine) (query : Nat) (r : Region) : Prop where
  mapped : regions m'.calls = regions m.calls ++ [⟨r.addr, r.size⟩]
  block : ∃ capacity, header m'.memory r.addr = ⟨null, ⟨capacity⟩, true⟩ ∧ query ≤ capacity ∧
    contentsOffset + capacity = r.size

/-- Both calls of `mmap` for a region of that size failed, and nothing was written. -/
structure Denied (m m' : Machine) (hint size : Nat) : Prop where
  calls : m'.calls = m.calls ++ [⟨mapPagesCall hint size mapFixedNoreplace, mapFailed⟩,
    ⟨mapPagesCall hint size 0, mapFailed⟩]
  memory : m'.memory = m.memory

theorem allocRegion_covers {os : Platform}
    (fits : roundUp os.pageSize (query + contentsOffset) < 2 ^ 64) (hint : Nat) (m : Machine) :
    Ensures (allocRegion os hint query) m fun r m' =>
      (r = regionInvalid ∧ Denied m m' hint (regionSize os.pageSize query)) ∨
      (r.size = regionSize os.pageSize query ∧ os.pageSize ∣ r.addr ∧ Covered m m' query r) := by
  cases asked : requestRegion (os.since m.calls) hint (regionSize os.pageSize query) with
  | mk region events =>
      refine (allocRegion_requests asked).mono ?_
      rintro r m' ⟨calls, ⟨failed, invalid, memory, _⟩ | ⟨mapped, rfl, obtained⟩⟩
      · rw [failed] at asked
        rw [requestRegion_refused asked] at calls
        exact .inl ⟨invalid, calls, memory⟩
      · have one := requestRegion_one asked mapped
        have aligned := (requestRegion_lawful asked mapped).2.1
        have sized := freshBlock_size region os.pageSize query
        refine .inr ⟨rfl, aligned, by rw [calls, regions_append, one], _, obtained.placed, ?_, ?_⟩
        · exact freshBlock_serves os.pageSize_pos fits region
        · exact sized

/-- Below the limit the size of a region is the least multiple of the page size that holds the
request with its header and is not below the minimum, and the block of the region covers it;
there is no region only when both calls of `mmap` for that size failed. -/
theorem region_sizing_exact (power : ∃ k < 31, pageSize = 2 ^ k)
    (limit : query + contentsOffset ≤ 2 ^ 64 - pageSize) :
    IsLeast {n | pageSize ∣ n ∧ max (query + contentsOffset) regionMinSize ≤ n}
        (regionActualSize pageSize (sizeFromCapacity ⟨query⟩).bytes) ∧
      ∀ os : Platform, os.pageSize = pageSize → ∀ (hint : Nat) (m : Machine),
        Ensures (allocRegion os hint query) m fun r m' =>
          (r = regionInvalid ∧
            Denied m m' hint (regionActualSize pageSize (sizeFromCapacity ⟨query⟩).bytes)) ∨
          (r.size = regionActualSize pageSize (sizeFromCapacity ⟨query⟩).bytes ∧
            pageSize ∣ r.addr ∧ Covered m m' query r) := by
  obtain ⟨k, small, same⟩ := power
  have bound : pageSize < 2 ^ 64 := by
    rw [same]
    exact Nat.pow_lt_pow_right (by decide) (by omega)
  have fits := roundUp_fits (same ▸ Nat.two_pow_pos k) limit bound
  refine ⟨regionSize_isLeast ⟨k, same⟩ fits, ?_⟩
  rintro os rfl hint m
  exact allocRegion_covers fits hint m

/-- Pages of a gigabyte, of which the first request gets those behind the first. -/
def gigabytePages : Platform where
  pageSize := 2 ^ 30
  mmap past call :=
    if past = [] ∧ 2 ^ 30 + call.length < 2 ^ 64 then 2 ^ 30 else mapFailed
  padding _ _ _ := 0
  pageSize_pow := ⟨30, by decide, rfl⟩
  mmap_lawful := by
    intro past call
    split
    · rename_i lawful
      obtain ⟨rfl, room⟩ := lawful
      exact .inr ⟨by decide, dvd_refl _, room, by simp⟩
    · exact .inl rfl

/-- The largest request below the limit, and one of a gigabyte that takes two pages. -/
theorem region_sizing_exact_of_gigabyte :
    IsLeast {n | 2 ^ 30 ∣ n ∧ max (2 ^ 64 - 2 ^ 30 - 17 + contentsOffset) regionMinSize ≤ n}
      (regionActualSize (2 ^ 30) (sizeFromCapacity ⟨2 ^ 64 - 2 ^ 30 - 17⟩).bytes) ∧
    ∃ r m', allocRegion gigabytePages (2 ^ 30) (2 ^ 30) ⟨fun _ => 0, [], []⟩ = some (r, m') ∧
      r.size = 2 ^ 31 ∧ Covered ⟨fun _ => 0, [], []⟩ m' (2 ^ 30) r := by
  obtain ⟨largest, _⟩ :=
    @region_sizing_exact (2 ^ 30) (2 ^ 64 - 2 ^ 30 - 17) ⟨30, by decide, rfl⟩ (by decide)
  obtain ⟨_, covers⟩ := @region_sizing_exact (2 ^ 30) (2 ^ 30) ⟨30, by decide, rfl⟩ (by decide)
  obtain ⟨r, m', returned, ended⟩ :=
    covers gigabytePages rfl (2 ^ 30) ⟨fun _ => 0, [], []⟩
  have once : (allocRegion gigabytePages (2 ^ 30) (2 ^ 30) ⟨fun _ => 0, [], []⟩).map
      (fun r => r.2.calls.length) = some 1 := by
    decide +kernel
  rw [returned] at once
  refine ⟨largest, r, m', returned, ?_⟩
  rcases ended with ⟨_, denied⟩ | ⟨size, _, covered⟩
  · have twice := congrArg List.length denied.calls
    exact absurd (twice.symm.trans (Option.some.inj once)) (by decide)
  · exact ⟨size.trans (by decide), covered⟩

end MemoryAllocator
