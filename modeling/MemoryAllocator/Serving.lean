import MemoryAllocator.Merging
import MemoryAllocator.ListAllocator

/-! Serving a request from the list that memory holds: the found block is split and marked
taken, inside its own cells, and the code reports and leaves what the list search does. -/
namespace MemoryAllocator
open Foundation

/-- What any part of a request does to the machine: memory holds the next list, which begins
where the old one began; no taken block moves, shrinks or loses a byte; only headers on the
list are touched, block initialisation apart. -/
structure Evolves (m : Machine) (l : List Block) (m' : Machine) (l' : List Block) : Prop where
  holds : Holds m'.memory l'
  head : headAddr l' null = headAddr l null
  extents : extents l ⊆ extents l'
  takens : takens l ⊆ takens l'
  kept : ∀ x, Kept l x → m'.memory x = m.memory x
  accesses : ∃ new, m'.accesses = m.accesses ++ new ∧
    ∀ a ∈ new, a.kind ≠ .init → OnList (headAddr l null) (MemoryAllocator.extents l') a

theorem OnList.mono {start : Nat} {within wider : List Nat} {a : Access}
    (onList : OnList start within a) (subset : within ⊆ wider) : OnList start wider a := by
  obtain ⟨blocks, holds, head, inside, header⟩ := onList
  exact ⟨blocks, holds, head, List.Subset.trans inside subset, header⟩

theorem Kept.mono {l l' : List Block} (subset : takens l ⊆ takens l') {x : Nat} (kept : Kept l x) :
    Kept l' x := by
  obtain ⟨b, member, range⟩ := kept
  exact ⟨b, subset member, range⟩

namespace Evolves

variable {m m' m'' : Machine} {l l' l'' : List Block}

theorem trans (first : Evolves m l m' l') (second : Evolves m' l' m'' l'') :
    Evolves m l m'' l'' := by
  obtain ⟨new, grown, onList⟩ := first.accesses
  obtain ⟨new', grown', onList'⟩ := second.accesses
  refine ⟨second.holds, second.head.trans first.head,
    List.Subset.trans first.extents second.extents,
    List.Subset.trans first.takens second.takens, ?_, new ++ new',
    by rw [grown', grown, List.append_assoc], ?_⟩
  · intro x kept
    exact (second.kept x (kept.mono first.takens)).trans (first.kept x kept)
  · intro a member touched
    rcases List.mem_append.mp member with early | late
    · exact (onList a early touched).mono second.extents
    · have moved := onList' a late touched
      rwa [first.head] at moved

end Evolves

theorem Merges.evolves {m m' : Machine} {l l' : List Block} (merges : Merges m l m' l') :
    Evolves m l m' l' := by
  obtain ⟨new, grown, onList, _⟩ := merges.accesses
  refine ⟨merges.holds, headAddr_fuses merges.fuses null, ?_, ?_, merges.kept, new, grown, ?_⟩
  · rw [extents_fuses merges.fuses]
    exact List.Subset.refl _
  · rw [takens_fuses merges.fuses]
    exact List.Subset.refl _
  · intro a member _
    rw [extents_fuses merges.fuses]
    exact onList a member

section
variable {os : Platform} {m : Machine} {pre post : List Block} {b : Block} {query : Nat}

theorem WellFormed.of_sublist {l l' : List Block} (wf : WellFormed l)
    (sublist : (extents l').Sublist (extents l)) (large : MinCapacity l') : WellFormed l' := by
  refine ⟨⟨wf.room.nodup.sublist sublist, ?_, ?_⟩, large⟩
  · exact fun x member => wf.room.positive x (sublist.subset member)
  · exact fun x member => wf.room.bounded x (sublist.subset member)

theorem Holds.storeIsFree {flag : Bool} (holds : Holds m.memory (pre ++ b :: post)) :
    Holds (writeBytes m.memory (b.addr + 16) [flagByte flag])
      (pre ++ { b with isFree := flag } :: post) := by
  have wf := holds.wellFormed
  have large := wf.minCapacity b (by simp)
  have marked : WellFormed (pre ++ { b with isFree := flag } :: post) := by
    apply wf.of_extents (by simp [Block.span, Block.size])
    exact wf.minCapacity.replace [{ b with isFree := flag }] (by simpa [MinCapacity] using large)
  refine holds.rewrite [b] [{ b with isFree := flag }] marked rfl ?_ ⟨?_, trivial⟩
  · intro x outside
    have apart := not_mem_extents_singleton.mp outside
    simp only [Block.stop, Block.size, contentsOffset] at apart
    exact writeBytes_outside (by simp only [List.length_singleton]; omega)
  · rw [header_writeIsFree, holds.header_at]
    rfl

theorem Kept.outside_free (wf : WellFormed (pre ++ b :: post)) (free : b.isFree = true) {x : Nat}
    (kept : Kept (pre ++ b :: post) x) : x < b.addr ∨ b.stop ≤ x :=
  not_mem_extents_singleton.mp (wf.kept_not_mem [b] (by simp [takens, free]) kept)

theorem storeIsFree_takes (holds : Holds m.memory (pre ++ b :: post)) (free : b.isFree = true) :
    Ensures (storeIsFree b.addr false) m fun _ m' =>
      m'.calls = m.calls ∧ Evolves m (pre ++ b :: post) m' (pre ++ b.take :: post) := by
  have same : extents (pre ++ b.take :: post) = extents (pre ++ b :: post) := by
    simp [Block.span, Block.size, Block.take]
  simp only [ensures_storeIsFree, touched_calls, true_and]
  refine ⟨holds.storeIsFree, ?_, ?_, ?_, ?_, [⟨.write, b.addr, m.memory⟩], rfl, ?_⟩
  · exact headAddr_replace (b := b) (c := b.take) rfl pre post post null
  · rw [same]
    exact List.Subset.refl _
  · intro c member
    simp only [takens_append, takens_cons_free free, List.mem_append] at member
    simp only [takens_append, takens_cons_taken (b := b.take) rfl, List.mem_append, List.mem_cons]
    rcases member with front | back
    · exact .inl front
    · exact .inr (.inr back)
  · intro x kept
    have outside := kept.outside_free holds.wellFormed free
    have sized : b.stop = b.addr + (17 + b.capacity) := rfl
    exact writeBytes_outside (by simp only [List.length_singleton]; omega)
  · intro a member _
    obtain rfl := List.mem_singleton.mp member
    refine ⟨_, holds, rfl, ?_, b, by simp, rfl⟩
    rw [same]
    exact List.Subset.refl _

/-- The arithmetic of a split, for a block that leaves room for the sum in `blockSplittable`. -/
theorem blockSplittable_decides (holds : Holds m.memory (pre ++ b :: post)) (free : b.isFree = true)
    (fits : query ≤ b.capacity) (roomy : b.capacity + 41 < 2 ^ 64) :
    Ensures (blockSplittable b.addr query) m fun split m' =>
      split = decide (b.Splittable query) ∧
        Merges m (pre ++ b :: post) m' (pre ++ b :: post) := by
  have bHeader := holds.header_at
  have bNull := holds.wellFormed.nonnull (b := b) (by simp)
  have exact_sum : (query + contentsOffset + blockMinCapacity) % 2 ^ 64 =
      query + contentsOffset + blockMinCapacity := by
    simp only [contentsOffset, blockMinCapacity]
    omega
  simp only [blockSplittable, if_neg bNull, ensures_bind, ensures_loadIsFree, bHeader, free,
    if_true, ensures_loadCapacity, touched_memory, ensures_pure, exact_sum]
  refine ⟨rfl, ?_⟩
  exact .of_reads [b.addr, b.addr] holds rfl rfl (by simp [touches])
    (by simp)

theorem Holds.write_contents {memory memory' : Memory} (holds : Holds memory (pre ++ b :: post))
    (outside : ∀ x, x < b.contents ∨ b.stop ≤ x → memory' x = memory x) :
    Holds memory' (pre ++ b :: post) := by
  refine holds.rewrite [b] [b] holds.wellFormed rfl ?_ ⟨?_, trivial⟩
  · intro x notIn
    have apart := not_mem_extents_singleton.mp notIn
    apply outside x
    simp only [Block.contents]
    omega
  · rw [header_congr fun x _ upper => outside x (.inl upper)]
    exact holds.header_at

/-- The free block of a split before the rest is linked in. -/
def Block.half (b : Block) (query : Nat) : Block := { b with capacity := query }

theorem Holds.shrink {memory : Memory} (holds : Holds memory (pre ++ b :: post))
    (large : blockMinCapacity ≤ query) (fits : query ≤ b.capacity) :
    Holds (writeWord 8 memory (b.addr + 8) query) (pre ++ b.half query :: post) := by
  have wf := holds.wellFormed
  have bound := wf.stop_lt (b := b) (by simp)
  simp only [Block.stop, Block.size, contentsOffset] at bound
  have shrunk : WellFormed (pre ++ b.half query :: post) := by
    have fewer := cells_append b.addr (b.half query).size (b.capacity - query)
    have sized : (b.half query).size + (b.capacity - query) = b.size := by
      simp only [Block.half, Block.size]
      omega
    rw [sized] at fewer
    refine wf.of_sublist ?_ ?_
    · simp only [extents_append, extents_cons, Span.cells, Block.span, ← fewer]
      exact (List.Sublist.refl _).append
        ((List.sublist_append_left _ _).append (List.Sublist.refl _))
    · exact wf.minCapacity.replace [b.half query] (by simpa [MinCapacity, Block.half] using large)
  refine holds.rewrite [b] [b.half query] shrunk rfl ?_ ⟨?_, trivial⟩
  · intro x notIn
    have apart := not_mem_extents_singleton.mp notIn
    simp only [Block.stop, Block.size, contentsOffset] at apart
    exact writeWord_outside (by omega)
  · simp only [Block.half]
    rw [header_writeCapacity (by omega), holds.header_at]
    rfl

theorem Holds.relink {memory : Memory} {later : List Block}
    (holds : Holds memory (pre ++ b :: post)) (wf : WellFormed (pre ++ b :: later))
    (linked : Linked memory later null) :
    Holds (writeWord 8 memory b.addr (headAddr later null)) (pre ++ b :: later) := by
  have same : ∀ c ∈ pre ++ later, ∀ x, c.addr ≤ x → x < c.addr + contentsOffset →
      writeWord 8 memory b.addr (headAddr later null) x = memory x := by
    intro c member x lower upper
    have between := wf.apart c member
    simp only [Block.stop, Block.size, contentsOffset] at between upper
    exact writeWord_outside (by omega)
  obtain ⟨front, _⟩ := linked_append.mp holds.linked
  refine ⟨wf, linked_append.mpr ⟨?_, ?_, ?_⟩⟩
  · exact front.frame fun c member => same c (List.mem_append_left later member)
  · rw [header_writeNext (wf.headAddr_lt fun c member => by simp [member]), holds.header_at]
  · exact linked.frame fun c member => same c (List.mem_append_right pre member)

/-- The two free halves of a split, or the block left whole. -/
def Block.halves (query : Nat) (b : Block) : List Block :=
  if b.Splittable query then [b.half query, b.rest query] else [b]

theorem extents_halves (query : Nat) (b : Block) (blocks : List Block) :
    extents (b.halves query ++ blocks) = extents (b :: blocks) := by
  have carved := extents_carve query b blocks
  unfold Block.carve at carved
  unfold Block.halves
  split
  · rename_i splittable
    rw [if_pos splittable] at carved
    exact carved
  · rfl

theorem rest_of_split (splittable : b.Splittable query) (bound : b.stop < 2 ^ 64) :
    (contents b.addr + query) % 2 ^ 64 = (b.rest query).addr ∧
      capacityFromSize ⟨wrapSub b.capacity query⟩ = ⟨(b.rest query).capacity⟩ := by
  simp only [Block.Splittable, contentsOffset, blockMinCapacity] at splittable
  simp only [Block.stop, Block.size, contentsOffset] at bound
  simp only [contents, capacityFromSize, wrapSub, Block.rest, Block.contents, contentsOffset,
    BlockCapacity.mk.injEq]
  omega

theorem WellFormed.halves (wf : WellFormed (pre ++ b :: post)) (large : blockMinCapacity ≤ query)
    (fits : query ≤ b.capacity) : WellFormed (pre ++ (b.halves query ++ post)) := by
  apply wf.of_extents (by simp only [extents_append pre, extents_halves])
  apply wf.minCapacity.replace
  intro c middle
  unfold Block.halves at middle
  split at middle
  · rename_i splittable
    simp only [Block.Splittable, contentsOffset, blockMinCapacity] at splittable
    simp only [List.mem_cons, List.not_mem_nil, or_false] at middle
    rcases middle with rfl | rfl
    · exact large
    · simp only [Block.rest, contentsOffset, blockMinCapacity]
      omega
  · obtain rfl := List.mem_singleton.mp middle
    exact wf.minCapacity c (by simp)

/-- The three memories of a split: the header of the rest is written into the contents of the
block, the block is shrunk, and it is linked to the rest. -/
structure Splits (memory memory₁ memory₂ memory₃ : Memory) (pre : List Block) (b : Block)
    (query : Nat) (post : List Block) : Prop where
  written : Holds memory₁ (pre ++ b :: post)
  shrunk : Holds memory₂ (pre ++ b.half query :: post)
  linked : Holds memory₃ (pre ++ b.half query :: b.rest query :: post)
  outside : ∀ x, x < b.addr ∨ b.stop ≤ x → memory₃ x = memory x

theorem Holds.splits {memory memory₁ : Memory} {padding : Fin 7 → UInt8}
    (holds : Holds memory (pre ++ b :: post)) (splittable : b.Splittable query)
    (large : blockMinCapacity ≤ query)
    (written : writeBytes memory (b.rest query).addr
      (headerBytes ⟨headAddr post null, ⟨(b.rest query).capacity⟩, true⟩ padding) = memory₁) :
    Splits memory memory₁ (writeWord 8 memory₁ (b.addr + 8) query)
      (writeWord 8 (writeWord 8 memory₁ (b.addr + 8) query) b.addr (b.rest query).addr)
      pre b query post := by
  have wf := holds.wellFormed
  have bStop := wf.stop_lt (b := b) (by simp)
  have inside := splittable
  simp only [Block.Splittable, contentsOffset, blockMinCapacity] at inside
  simp only [Block.stop, Block.size, contentsOffset] at bStop
  have fits : query ≤ b.capacity := by omega
  -- outside 24 bytes in the contents of the block, the first write changes nothing
  have first : ∀ x, x < b.contents + query ∨ b.contents + query + 24 ≤ x →
      memory₁ x = memory x := by
    intro x outside
    rw [← written]
    exact writeBytes_outside (by simpa [Block.rest] using outside)
  have placed : header memory₁ (b.rest query).addr =
      ⟨headAddr post null, ⟨(b.rest query).capacity⟩, true⟩ := by
    rw [← written]
    refine header_writeBytes_headerBytes (wf.headAddr_lt fun d member => by simp [member]) ?_
    simp only [Block.rest]
    omega
  have holds₁ : Holds memory₁ (pre ++ b :: post) := by
    refine holds.write_contents fun x outside => first x ?_
    simp only [Block.contents, Block.stop, Block.size, contentsOffset] at outside ⊢
    omega
  have holds₂ := holds₁.shrink large fits
  have restKept : header (writeWord 8 memory₁ (b.addr + 8) query) (b.rest query).addr =
      header memory₁ (b.rest query).addr := by
    refine header_congr fun x lower _ => writeWord_outside ?_
    simp only [Block.rest, Block.contents, contentsOffset] at lower
    omega
  have wf' := wf.halves large fits
  rw [Block.halves, if_pos splittable] at wf'
  refine ⟨holds₁, holds₂, ?_, ?_⟩
  · exact holds₂.relink wf' ⟨restKept.trans placed, (linked_append.mp holds₂.linked).2.2⟩
  · intro x outside
    simp only [Block.stop, Block.size, contentsOffset] at outside
    rw [writeWord_outside (by omega), writeWord_outside (by omega)]
    apply first x
    simp only [Block.contents, contentsOffset]
    omega

/-- A split of a free block is a change of the list inside the cells of that block. -/
theorem splitIfTooBig_halves (holds : Holds m.memory (pre ++ b :: post)) (free : b.isFree = true)
    (large : blockMinCapacity ≤ query) (fits : query ≤ b.capacity)
    (roomy : b.capacity + 41 < 2 ^ 64) :
    Ensures (splitIfTooBig os b.addr query) m fun _ m' =>
      m'.calls = m.calls ∧ Evolves m (pre ++ b :: post) m' (pre ++ (b.halves query ++ post)) := by
  apply Ensures.bind (blockSplittable_decides holds free fits roomy)
  rintro split m' ⟨rfl, merges⟩
  have whole : extents (pre ++ (b.halves query ++ post)) = extents (pre ++ b :: post) := by
    simp only [extents_append pre, extents_halves]
  unfold Block.halves at whole ⊢
  by_cases splittable : b.Splittable query
  · rw [if_pos splittable] at whole ⊢
    have bHeader := merges.holds.header_at
    obtain ⟨restAddr, restCapacity⟩ :=
      rest_of_split splittable (merges.holds.wellFormed.stop_lt (b := b) (by simp))
    simp only [splittable, decide_true, if_true, ensures_bind, ensures_loadCapacity,
      ensures_loadNext, ensures_blockInit, ensures_storeCapacity, ensures_storeNext, ensures_pure,
      touched_memory, touched_calls, bHeader, restAddr, restCapacity]
    refine ⟨merges.calls, merges.evolves.trans ?_⟩
    generalize written : writeBytes m'.memory (b.rest query).addr
      (headerBytes ⟨headAddr post null, ⟨(b.rest query).capacity⟩, true⟩ _) = memory₁
    have splits := merges.holds.splits splittable large written
    refine ⟨splits.linked, headAddr_replace (b := b) (c := b.half query) rfl pre post _ null,
      ?_, ?_, ?_, [⟨.read, b.addr, m'.memory⟩, ⟨.read, b.addr, m'.memory⟩,
        ⟨.init, (b.rest query).addr, m'.memory⟩, ⟨.write, b.addr, memory₁⟩,
        ⟨.write, b.addr, writeWord 8 memory₁ (b.addr + 8) query⟩], ?_, ?_⟩
    · exact (congrArg (extents (pre ++ b :: post) ⊆ ·) whole).mpr (List.Subset.refl _)
    · have halfFree : (b.half query).isFree = true := free
      have restFree : (b.rest query).isFree = true := rfl
      simp [takens, free, halfFree, restFree]
    · exact fun x kept => splits.outside x (kept.outside_free merges.holds.wellFormed free)
    · simp only [touched_accesses, List.append_assoc, touched_memory]
      rfl
    · have subset : extents (pre ++ b.half query :: post) ⊆
          extents (pre ++ ([b.half query, b.rest query] ++ post)) := by
        intro x
        simp only [extents_append, extents_cons, extents_nil, List.mem_append]
        tauto
      have whole' := (congrArg (extents (pre ++ b :: post) ⊆ ·) whole).mpr (List.Subset.refl _)
      have start : headAddr (pre ++ b.half query :: post) null =
          headAddr (pre ++ b :: post) null :=
        headAddr_replace (b := b) (c := b.half query) rfl pre post post null
      simp only [List.forall_mem_cons]
      refine ⟨?_, ?_, ?_, ?_, ?_, ?_⟩
      · exact fun _ => ⟨_, merges.holds, rfl, whole', b, by simp, rfl⟩
      · exact fun _ => ⟨_, merges.holds, rfl, whole', b, by simp, rfl⟩
      · exact fun touched => absurd rfl touched
      · exact fun _ => ⟨_, splits.written, rfl, whole', b, by simp, rfl⟩
      · exact fun _ => ⟨_, splits.shrunk, start, subset, b.half query, by simp, rfl⟩
      · simp
  · rw [if_neg splittable]
    simp only [splittable, decide_false, Bool.false_eq_true, if_false, ensures_pure]
    exact ⟨merges.calls, merges.evolves⟩

/-- No capacity comes near `2 ^ 64`, however the list is merged. -/
def Roomy (blocks : List Block) : Prop :=
  ∀ merged, Block.fusion.Fuses blocks merged → ∀ b ∈ merged, b.capacity + 41 < 2 ^ 64

/-- The list a search leaves once the block it found has been served. -/
def carved (query : Nat) : SearchResult Block → List Block
  | .found before good after => before ++ (good.carve query ++ after)
  | .exhausted before last => before ++ [last]

theorem take_halves (query : Nat) (b : Block) :
    ∃ half rest, b.halves query = half :: rest ∧ half.addr = b.addr ∧ half.isFree = b.isFree ∧
      b.carve query = half.take :: rest := by
  unfold Block.halves Block.carve
  split
  · exact ⟨b.half query, [b.rest query], rfl, rfl, rfl, rfl⟩
  · exact ⟨b, [], rfl, rfl, rfl, rfl⟩

theorem tryMemallocExisting_serves (os : Platform) (holds : Holds m.memory (pre ++ b :: post))
    (large : blockMinCapacity ≤ query) (roomy : Roomy (pre ++ b :: post)) :
    Ensures (tryMemallocExisting os query b.addr) m fun r m' =>
      r = report (Block.fusion.search (Block.fits query) b post) ∧ m'.calls = m.calls ∧
        Evolves m (pre ++ b :: post) m'
          (pre ++ carved query (Block.fusion.search (Block.fits query) b post)) := by
  have spec := Fusion.search_spec (F := Block.fusion) (Block.fits query) b post
  apply Ensures.bind (findGoodOrLast_searches holds)
  rintro r m' ⟨rfl, merges⟩
  cases result : Block.fusion.search (Block.fits query) b post with
  | exhausted before last =>
      rw [result] at merges
      simp only [report, carved, reduceCtorEq, if_false, ensures_pure, true_and]
      exact ⟨merges.calls, merges.evolves⟩
  | found before good after =>
      rw [result] at merges spec
      obtain ⟨free, fits⟩ := Block.fits_iff.mp spec.decides.1
      have grouped : pre ++ (SearchResult.found before good after).list =
          (pre ++ before) ++ good :: after := by
        simp [SearchResult.list]
      have room : good.capacity + 41 < 2 ^ 64 :=
        roomy _ merges.fuses good (by simp [SearchResult.list])
      rw [grouped] at merges
      simp only [report, carved, if_true]
      apply Ensures.bind (splitIfTooBig_halves merges.holds free large fits room)
      rintro _ m'' ⟨calls, evolves⟩
      obtain ⟨half, rest, halves, addr, halfFree, carve⟩ := take_halves query good
      rw [halves, List.cons_append] at evolves
      rw [carve, ← addr]
      apply Ensures.bind (storeIsFree_takes evolves.holds (halfFree.trans free))
      rintro _ m''' ⟨calls', marked⟩
      simp only [ensures_pure, true_and]
      refine ⟨calls'.trans (calls.trans merges.calls), ?_⟩
      have whole := (merges.evolves.trans evolves).trans marked
      simpa using whole

end
end MemoryAllocator
