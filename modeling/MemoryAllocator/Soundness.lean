import MemoryAllocator.Ownership

/-! What a pointer returned by `_malloc` is worth. The region arithmetic wraps for the largest
requests; then the second search fails, and the block it stopped at is returned as if it had
been found. -/
namespace MemoryAllocator
open Foundation

/-- A pointer that is not null belongs to a block of the list that is taken, large enough, and
nobody else's. -/
def SoundReply (s : System) (query pointer : Nat) (m' : Machine) : Prop :=
  pointer ≠ null → pointer ∉ s.live.map Allocation.pointer ∧
    ∃ blocks b, Chain m'.memory heapStart blocks ∧ b ∈ blocks ∧ b.addr = blockGetHeader pointer ∧
      b.isFree = false ∧ max query blockMinCapacity ≤ b.capacity

theorem Linked.header_of_mem {memory : Memory} {blocks : List Block} {tail : Nat} {b : Block}
    (linked : Linked memory blocks tail) (member : b ∈ blocks) :
    (header memory b.addr).isFree = b.isFree ∧ (header memory b.addr).capacity = ⟨b.capacity⟩ := by
  obtain ⟨pre, post, rfl⟩ := List.append_of_mem member
  rw [linked.header_at]
  exact ⟨rfl, rfl⟩

section
variable {os : Platform} {s : System} {blocks : List Block} {query : Nat}

theorem Heap.capacity_lt {m : Machine} (heap : Heap m blocks) (placed : Placed os m.calls)
    (wraps : ¬ Admissible os.pageSize query) {b : Block} (member : b ∈ blocks) :
    b.capacity < max query blockMinCapacity :=
  capacity_lt_of_not_fits os.pageSize_pos wraps (heap.behind placed member)
    (heap.holds.wellFormed.stop_lt member)

theorem Invariant.sound_of_servable (invariant : Invariant os s blocks) {pointer : Nat}
    {m' : Machine} (servable : Servable os s.machine.calls query)
    (returned : malloc os query s.machine = some (pointer, m')) :
    SoundReply s query pointer m' := by
  intro nonnull
  obtain ⟨rfl, _, _, invariant'⟩ := invariant.malloc_step servable rfl returned
  obtain ⟨heap', owned', _⟩ := invariant'
  rw [obtained, if_neg nonnull] at owned'
  obtain ⟨b, taken, pointer, enough, _⟩ := owned'.served _ List.mem_cons_self
  obtain ⟨member, isTaken⟩ := mem_takens.mp taken
  refine ⟨(List.nodup_cons.mp owned'.distinct).1, _, b, heap'.chain, member, ?_, isTaken, enough⟩
  have begin' := blockGetHeader_contents heap'.holds.wellFormed member
  exact begin'.symm.trans (congrArg blockGetHeader pointer)

theorem Invariant.servable_of_sound (invariant : Invariant os s blocks) {pointer : Nat}
    {m' : Machine} (returned : malloc os query s.machine = some (pointer, m'))
    (sound : SoundReply s query pointer m') : Servable os s.machine.calls query := by
  by_cases admissible : Admissible os.pageSize query
  · exact .inl admissible
  · refine .inr ?_
    obtain ⟨outcome, rfl, calls, _, heap'⟩ := invariant.heap.replied returned
    by_cases failed : (ListAllocator.malloc os.pageSize (os.since s.machine.calls) query
        blocks).pointer = null
    · exact (invariant.refused_of_null outcome failed).1
    · -- the block of a sound reply would be too large for the address space
      obtain ⟨_, blocks', b, chain, member, _, _, enough⟩ := sound failed
      have placed' : Placed os m'.calls := calls ▸ invariant.placed.reply outcome
      rw [heap'.unique chain] at member
      have small := heap'.capacity_lt placed' admissible member
      omega

end

/-- In a run whose requests were all servable, the next request always returns, and what it
returns is sound exactly when that request is servable too. -/
theorem malloc_sound_iff {os : Platform} {s : System} (reachable : SafelyReachable os s)
    (query : Nat) : ∃ pointer m', malloc os query s.machine = some (pointer, m') ∧
      (SoundReply s query pointer m' ↔ Servable os s.machine.calls query) := by
  obtain ⟨blocks, invariant⟩ := reachable.invariant
  obtain ⟨pointer, m', returned⟩ := invariant.malloc_returns query
  exact ⟨pointer, m', returned, fun sound => invariant.servable_of_sound returned sound,
    fun servable => invariant.sound_of_servable servable returned⟩

theorem malloc_sound_iff_after_request : ∃ s, session granting 8175 [.malloc 100] = some s ∧
    ∃ pointer m', malloc granting (2 ^ 64 - 1) s.machine = some (pointer, m') ∧
      (SoundReply s (2 ^ 64 - 1) pointer m' ↔
        Servable granting s.machine.calls (2 ^ 64 - 1)) := by
  have served : (session granting 8175 [.malloc 100]).isSome = true := by decide +kernel
  obtain ⟨s, returned⟩ := Option.isSome_iff_exists.mp served
  have reachable := session_reachable (by decide) (by decide) returned
  exact ⟨s, returned, malloc_sound_iff reachable.safely (2 ^ 64 - 1)⟩

/-- The largest request, on a heap of two pages: a free block of 16367 bytes is returned. -/
theorem malloc_unsound : ∃ s, session granting 8175 [] = some s ∧
    ∃ m', malloc granting (2 ^ 64 - 1) s.machine = some (heapStart + contentsOffset, m') ∧
      header m'.memory heapStart = ⟨null, ⟨16367⟩, true⟩ ∧
      ¬ SoundReply s (2 ^ 64 - 1) (heapStart + contentsOffset) m' := by
  have grown : ((session granting 8175 []).bind fun s =>
      (malloc granting (2 ^ 64 - 1) s.machine).map fun reply =>
        (reply.1, header reply.2.memory heapStart)) =
      some (heapStart + contentsOffset, ⟨null, ⟨16367⟩, true⟩) := by
    decide +kernel
  obtain ⟨s, started, returned⟩ := Option.bind_eq_some_iff.mp grown
  obtain ⟨⟨pointer, m'⟩, returned, same⟩ := Option.map_eq_some_iff.mp returned
  obtain ⟨rfl, headed⟩ := Prod.mk.inj same
  refine ⟨s, started, m', returned, headed, ?_⟩
  intro sound
  obtain ⟨_, blocks, b, chain, member, addr, taken, _⟩ := sound (by decide)
  have marked := (chain.linked.header_of_mem member).1
  have head : b.addr = heapStart := addr.trans (by decide)
  rw [head, headed, taken] at marked
  exact absurd marked (by decide)

end MemoryAllocator
