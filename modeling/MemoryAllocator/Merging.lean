import MemoryAllocator.Mem
import MemoryAllocator.Represents

/-! Merging and the search, over memory: the loops of the code fuse the list that memory holds
just as `absorb` and `search` fuse a list, touch only headers of that list, and end. -/
namespace MemoryAllocator
open Foundation

/-- The bytes of the taken blocks, the `next` fields left out. -/
def Kept (blocks : List Block) (x : Nat) : Prop :=
  ∃ b ∈ takens blocks, b.addr + 8 ≤ x ∧ x < b.stop

/-- The header touched belonged to the block list of that moment, and the list lay within the
given cells. -/
def OnList (start : Nat) (within : List Nat) (a : Access) : Prop :=
  ∃ blocks, Holds a.memory blocks ∧ headAddr blocks null = start ∧ extents blocks ⊆ within ∧
    ∃ b ∈ blocks, b.addr = a.header

/-- Touches of headers in a memory that did not change between them. -/
def touches (memory : Memory) (trace : List (AccessKind × Nat)) : List Access :=
  trace.map fun t => ⟨t.1, t.2, memory⟩

/-- A machine whose list had free neighbours fused and nothing else done to it: one header
written for each fusion, and no header touched off the list. -/
structure Merges (m : Machine) (l : List Block) (m' : Machine) (l' : List Block) : Prop where
  holds : Holds m'.memory l'
  fuses : Block.fusion.Fuses l l'
  calls : m'.calls = m.calls
  kept : ∀ x, Kept l x → m'.memory x = m.memory x
  accesses : ∃ new, m'.accesses = m.accesses ++ new ∧
    (∀ a ∈ new, OnList (headAddr l null) (extents l) a) ∧
    (new.countP fun a => a.kind == .init) + l'.length = l.length

theorem kept_fuses {l m : List Block} (fuses : Block.fusion.Fuses l m) (x : Nat) :
    Kept m x ↔ Kept l x := by
  simp only [Kept, takens_fuses fuses]

namespace Merges

variable {m m' m'' : Machine} {l l' l'' : List Block}

theorem trans (first : Merges m l m' l') (second : Merges m' l' m'' l'') : Merges m l m'' l'' := by
  obtain ⟨new, grown, onList, counted⟩ := first.accesses
  obtain ⟨new', grown', onList', counted'⟩ := second.accesses
  refine ⟨second.holds, first.fuses.trans second.fuses, second.calls.trans first.calls, ?_,
    new ++ new', by rw [grown', grown, List.append_assoc], ?_, ?_⟩
  · intro x kept
    exact (second.kept x ((kept_fuses first.fuses x).mpr kept)).trans (first.kept x kept)
  · intro a member
    rcases List.mem_append.mp member with early | late
    · exact onList a early
    · have moved := onList' a late
      rwa [headAddr_fuses first.fuses, extents_fuses first.fuses] at moved
  · rw [List.countP_append]
    omega

end Merges

theorem capacity_of_merge {b c : Block} (touching : c.addr = b.stop) (fits : c.stop < 2 ^ 64) :
    capacityFromSize ⟨((sizeFromCapacity ⟨b.capacity⟩).bytes +
      (sizeFromCapacity ⟨c.capacity⟩).bytes) % 2 ^ 64⟩ = ⟨(b.fuse c).capacity⟩ := by
  simp only [Block.stop, Block.size, contentsOffset] at touching fits
  simp only [capacityFromSize, sizeFromCapacity, wrapSub, contentsOffset, Block.fuse, Block.size,
    BlockCapacity.mk.injEq]
  omega

theorem contents_add_capacity {b : Block} (fits : b.stop < 2 ^ 64) :
    (contents b.addr + b.capacity) % 2 ^ 64 = b.stop := by
  simp only [Block.stop, Block.size, contentsOffset] at fits
  simp only [contents, Block.stop, Block.size, contentsOffset]
  omega

section
variable {os : Platform} {m : Machine} {pre post : List Block} {b c : Block}

theorem Holds.header_at {memory : Memory} (holds : Holds memory (pre ++ b :: post)) :
    header memory b.addr = ⟨headAddr post null, ⟨b.capacity⟩, b.isFree⟩ :=
  holds.linked.header_at

theorem Holds.header_next {memory : Memory} (holds : Holds memory (pre ++ b :: c :: post)) :
    header memory c.addr = ⟨headAddr post null, ⟨c.capacity⟩, c.isFree⟩ := by
  rw [List.append_cons] at holds
  exact holds.header_at

/-- The loops have rounds enough for whatever follows a block. -/
theorem Holds.rest_lt {memory : Memory} (holds : Holds memory (pre ++ b :: post)) :
    post.length + 1 < loopBound := by
  have bound := holds.wellFormed.length_lt
  simp only [List.length_append, List.length_cons] at bound
  simp only [loopBound]
  omega

theorem WellFormed.not_mem_middle {mid : List Block} (wf : WellFormed (pre ++ (mid ++ post)))
    {d : Block} (member : d ∈ pre ++ post) {x : Nat} (lower : d.addr ≤ x) (upper : x < d.stop) :
    x ∉ extents mid := by
  have nodup := wf.room.nodup
  simp only [extents_append] at nodup
  obtain ⟨_, restNodup, frontApart⟩ := List.nodup_append'.mp nodup
  obtain ⟨_, _, backApart⟩ := List.nodup_append'.mp restNodup
  have within : ∀ {blocks : List Block}, d ∈ blocks → x ∈ extents blocks := fun inBlocks =>
    mem_extents.mpr ⟨d, inBlocks, lower, upper⟩
  intro middle
  rcases List.mem_append.mp member with front | back
  · exact frontApart (within front) (List.mem_append_left _ middle)
  · exact backApart middle (within back)

theorem WellFormed.kept_not_mem (mid : List Block) (wf : WellFormed (pre ++ (mid ++ post)))
    (free : takens mid = []) {x : Nat} (kept : Kept (pre ++ (mid ++ post)) x) :
    x ∉ extents mid := by
  obtain ⟨d, member, lower, upper⟩ := kept
  simp only [takens_append, free, List.nil_append] at member
  have around : d ∈ pre ++ post := by
    rw [← takens_append] at member
    exact (mem_takens.mp member).1
  exact wf.not_mem_middle around ((Nat.le_add_right _ _).trans lower) upper

theorem Holds.rewrite {memory memory' : Memory} (mid mid' : List Block)
    (holds : Holds memory (pre ++ (mid ++ post))) (wf : WellFormed (pre ++ (mid' ++ post)))
    (begin' : headAddr (mid' ++ post) null = headAddr (mid ++ post) null)
    (outside : ∀ x, x ∉ extents mid → memory' x = memory x)
    (placed : Linked memory' mid' (headAddr post null)) :
    Holds memory' (pre ++ (mid' ++ post)) := by
  refine ⟨wf, holds.linked.replace begin' ?_ placed⟩
  intro d member x lower upper
  refine outside x (holds.wellFormed.not_mem_middle member lower ?_)
  simp only [Block.stop, Block.size]
  omega

theorem Holds.touches_onList {memory : Memory} {blocks : List Block} (holds : Holds memory blocks)
    {trace : List (AccessKind × Nat)} (headers : ∀ t ∈ trace, t.2 ∈ blocks.map Block.addr) :
    ∀ a ∈ touches memory trace, OnList (headAddr blocks null) (extents blocks) a := by
  intro a member
  obtain ⟨t, inside, rfl⟩ := List.mem_map.mp member
  exact ⟨blocks, holds, rfl, List.Subset.refl _, List.mem_map.mp (headers t inside)⟩

theorem Merges.of_reads {m m' : Machine} {l : List Block} (headers : List Nat)
    (holds : Holds m.memory l) (memory : m'.memory = m.memory) (calls : m'.calls = m.calls)
    (grown : m'.accesses = m.accesses ++ touches m.memory (headers.map fun h => (.read, h)))
    (inside : ∀ h ∈ headers, h ∈ l.map Block.addr) : Merges m l m' l := by
  refine ⟨memory ▸ holds, .refl l, calls, fun x _ => congrFun memory x, _, grown, ?_, ?_⟩
  · apply holds.touches_onList
    intro t member
    obtain ⟨h, among, rfl⟩ := List.mem_map.mp member
    exact inside h among
  · have none : (touches m.memory (headers.map fun h => (AccessKind.read, h))).countP
        (fun a => a.kind == .init) = 0 := by
      rw [List.countP_eq_zero]
      simp [touches]
    omega

/-- Fusible neighbours are merged by one rewrite of the first header. -/
theorem tryMergeWithNext_fuses (holds : Holds m.memory (pre ++ b :: c :: post))
    (fusible : b.fusible c = true) :
    Ensures (tryMergeWithNext os b.addr) m fun merged m' =>
      merged = true ∧ Merges m (pre ++ b :: c :: post) m' (pre ++ b.fuse c :: post) := by
  obtain ⟨bFree, cFree, touching⟩ := Block.fusible_iff.mp fusible
  have wf := holds.wellFormed
  have bHeader := holds.header_at
  have cHeader := holds.header_next
  have bNull := wf.nonnull (b := b) (by simp)
  have cNull := wf.nonnull (b := c) (by simp)
  have after : (contents b.addr + b.capacity) % 2 ^ 64 = c.addr :=
    (contents_add_capacity (wf.stop_lt (by simp))).trans touching.symm
  have cStop := wf.stop_lt (b := c) (by simp)
  simp only [tryMergeWithNext, mergeable, blocksContinuous, blockAfter, ensures_bind, if_neg bNull,
    ensures_loadNext, ensures_loadIsFree, ensures_loadCapacity, ensures_blockInit, ensures_pure,
    touched_memory, bHeader, cHeader, headAddr_cons, if_neg cNull, bFree, cFree, after,
    beq_self_eq_true, if_true, capacity_of_merge touching cStop, true_and]
  -- one header was written, over the first of two free blocks
  have fuses : Block.fusion.Fuses (pre ++ b :: c :: post) (pre ++ b.fuse c :: post) :=
    .single pre post fusible
  have free : takens [b, c] = [] := by simp [takens, bFree, cFree]
  have written : ∀ x, x ∉ extents [b, c] → x < b.addr ∨ b.addr + 24 ≤ x := by
    intro x outside
    have large := wf.minCapacity b (by simp)
    simp only [extents_cons, List.mem_append, not_or, Span.cells, Block.span, Block.size, mem_cells,
      contentsOffset] at outside
    simp only [blockMinCapacity] at large
    omega
  have fits : (b.fuse c).capacity < 2 ^ 64 := by
    have bound := (wf.fuses fuses).stop_lt (b := b.fuse c) (by simp)
    simp only [Block.stop, Block.size] at bound
    omega
  refine ⟨?_, fuses, ?_, ?_, touches m.memory [(.read, b.addr), (.read, b.addr), (.read, b.addr),
    (.read, c.addr), (.read, b.addr), (.read, b.addr), (.read, b.addr), (.read, c.addr),
    (.read, b.addr), (.read, c.addr), (.init, b.addr)], ?_, ?_, ?_⟩
  · refine holds.rewrite [b, c] [b.fuse c] (wf.fuses fuses) rfl ?_ ⟨?_, trivial⟩
    · intro x outside
      exact writeBytes_outside (by simpa using written x outside)
    · simp only [Block.fuse_addr, Block.fuse_isFree, bFree, headAddr_nil]
      exact header_writeBytes_headerBytes
        (wf.headAddr_lt fun d member => by simp [member]) fits
  · simp only [touched_calls]
  · intro x kept
    exact writeBytes_outside (by simpa using written x (wf.kept_not_mem [b, c] free kept))
  · simp [touches]
  · exact holds.touches_onList (by simp)
  · simp [touches]
    omega

theorem tryMergeWithNext_stays (holds : Holds m.memory (pre ++ b :: post))
    (border : ∀ c ∈ post.head?, b.fusible c = false) :
    Ensures (tryMergeWithNext os b.addr) m fun merged m' =>
      merged = false ∧ Merges m (pre ++ b :: post) m' (pre ++ b :: post) := by
  have wf := holds.wellFormed
  have bHeader := holds.header_at
  have bNull := wf.nonnull (b := b) (by simp)
  cases post with
  | nil =>
      simp only [tryMergeWithNext, ensures_bind, if_neg bNull, ensures_loadNext, bHeader,
        headAddr_nil, if_true, ensures_pure, true_and]
      exact .of_reads [b.addr] holds rfl rfl rfl (by simp)
  | cons c rest =>
      have apart := border c rfl
      have cHeader := holds.header_next
      have cNull := wf.nonnull (b := c) (by simp)
      have after := contents_add_capacity (wf.stop_lt (b := b) (by simp))
      simp only [tryMergeWithNext, mergeable, blocksContinuous, blockAfter, ensures_bind,
        if_neg bNull, ensures_loadNext, ensures_loadIsFree, bHeader, headAddr_cons, if_neg cNull,
        touched_memory]
      cases bFree : b.isFree with
      | false =>
          simp only [Bool.false_eq_true, if_false, ensures_pure, true_and]
          exact .of_reads [b.addr, b.addr, b.addr] holds rfl rfl (by simp [touches])
            (by simp)
      | true =>
          cases cFree : c.isFree with
          | false =>
              simp only [Bool.false_eq_true, if_true, if_false, ensures_bind, ensures_loadIsFree,
                touched_memory, cHeader, cFree, ensures_pure, true_and]
              exact .of_reads [b.addr, b.addr, b.addr, c.addr] holds rfl rfl
                (by simp [touches]) (by simp)
          | true =>
              have elsewhere : (c.addr == b.stop) = false := by
                simpa [Block.fusible, bFree, cFree] using apart
              simp only [if_true, ensures_bind, ensures_loadIsFree, ensures_loadCapacity,
                touched_memory, bHeader, cHeader, cFree, ensures_pure, after, elsewhere,
                Bool.false_eq_true, if_false, true_and]
              exact .of_reads [b.addr, b.addr, b.addr, c.addr, b.addr] holds rfl rfl
                (by simp [touches]) (by simp)

/-- The merge loop ends and leaves what absorbing the successors leaves. -/
theorem mergeLoop_absorbs {rounds : Nat} (holds : Holds m.memory (pre ++ b :: post))
    (enough : post.length < rounds) :
    Ensures (mergeLoop os rounds b.addr) m fun _ m' =>
      Merges m (pre ++ b :: post) m'
        (pre ++ (Block.fusion.absorb b post).1 :: (Block.fusion.absorb b post).2) := by
  induction post generalizing b m rounds with
  | nil =>
      obtain ⟨rounds, rfl⟩ := Nat.exists_eq_succ_of_ne_zero (Nat.ne_of_gt enough)
      apply Ensures.bind (tryMergeWithNext_stays holds (by simp))
      rintro merged m' ⟨rfl, merges⟩
      simp only [Bool.false_eq_true, if_false, ensures_pure]
      exact merges
  | cons c rest ih =>
      obtain ⟨rounds, rfl⟩ :=
        Nat.exists_eq_succ_of_ne_zero (Nat.ne_of_gt (Nat.zero_lt_of_lt enough))
      cases fusible : b.fusible c with
      | true =>
          apply Ensures.bind (tryMergeWithNext_fuses holds fusible)
          rintro merged m' ⟨rfl, merges⟩
          have later := ih merges.holds (b := b.fuse c) (Nat.lt_of_succ_lt_succ enough)
          have absorbed : Block.fusion.absorb b (c :: rest) =
              Block.fusion.absorb (b.fuse c) rest := if_pos fusible
          rw [absorbed]
          simp only [if_true]
          exact later.mono fun _ _ rest => merges.trans rest
      | false =>
          apply Ensures.bind (tryMergeWithNext_stays holds (by simpa using fusible))
          rintro merged m' ⟨rfl, merges⟩
          have kept : Block.fusion.absorb b (c :: rest) = (b, c :: rest) :=
            if_neg (by simp [Block.fusion, fusible])
          rw [kept]
          simp only [Bool.false_eq_true, if_false, ensures_pure]
          exact merges

theorem absorb_addr (b : Block) (post : List Block) :
    (Block.fusion.absorb b post).1.addr = b.addr := by
  have same := headAddr_fuses (Fusion.absorb_fuses (F := Block.fusion) b post) null
  simpa using same

theorem absorb_taken {b : Block} (taken : b.isFree = false) (post : List Block) :
    Block.fusion.absorb b post = (b, post) := by
  cases post with
  | nil => rfl
  | cons c rest => exact if_neg (by simp [Block.fusion, Block.taken_not_fusible_left taken])

theorem absorb_isFree (b : Block) (post : List Block) :
    (Block.fusion.absorb b post).1.isFree = b.isFree := by
  induction post generalizing b with
  | nil => rfl
  | cons c rest ih =>
      unfold Fusion.absorb
      split
      · exact ih _
      · rfl

theorem visitBlock_measures {sz : Nat} (holds : Holds m.memory (pre ++ b :: post)) :
    Ensures (visitBlock os sz b.addr) m fun good m' =>
      good = (Block.fusion.absorb b post).1.fits sz ∧ Merges m (pre ++ b :: post) m'
        (pre ++ (Block.fusion.absorb b post).1 :: (Block.fusion.absorb b post).2) := by
  have bHeader := holds.header_at
  have read : Merges m (pre ++ b :: post) (m.touched .read b.addr) (pre ++ b :: post) :=
    .of_reads [b.addr] holds rfl rfl rfl (by simp)
  simp only [visitBlock, ensures_bind, ensures_loadIsFree, bHeader]
  cases bFree : b.isFree with
  | false =>
      rw [absorb_taken bFree]
      simp only [Bool.false_eq_true, if_false, ensures_pure]
      exact ⟨by simp [Block.fits, bFree], read⟩
  | true =>
      have enough : post.length < loopBound := Nat.lt_of_succ_lt holds.rest_lt
      simp only [if_true, blockIsBigEnough, ensures_bind, ensures_loadCapacity, ensures_pure]
      refine (mergeLoop_absorbs read.holds enough).mono ?_
      intro _ m' merges
      have absorbed := merges.holds.header_at
      rw [absorb_addr] at absorbed
      have measured : Merges m' _ (m'.touched .read b.addr) _ :=
        .of_reads [b.addr] merges.holds rfl rfl rfl (by simp [absorb_addr])
      rw [absorbed]
      refine ⟨?_, (read.trans merges).trans measured⟩
      simp [Block.fits, absorb_isFree, bFree]

def report : SearchResult Block → BlockSearchResult
  | .found _ good _ => ⟨.foundGoodBlock, good.addr⟩
  | .exhausted _ last => ⟨.reachedEndNotFound, last.addr⟩

@[simp] theorem report_cons (a : Block) (r : SearchResult Block) :
    report (r.cons a) = report r := by
  cases r <;> rfl

/-- The outer loop ends, reports what a list search reports and leaves the list it leaves. -/
theorem searchLoop_searches {sz rounds last : Nat} (holds : Holds m.memory (pre ++ b :: post))
    (enough : post.length + 1 < rounds) :
    Ensures (searchLoop os sz rounds last b.addr) m fun r m' =>
      r = report (Block.fusion.search (Block.fits sz) b post) ∧
        Merges m (pre ++ b :: post) m'
          (pre ++ (Block.fusion.search (Block.fits sz) b post).list) := by
  induction rounds generalizing m pre b post last with
  | zero => omega
  | succ rounds ih =>
      have bNull := holds.wellFormed.nonnull (b := b) (by simp)
      simp only [searchLoop, if_neg bNull]
      apply Ensures.bind (visitBlock_measures holds)
      rintro good m' ⟨rfl, merges⟩
      have shorter := Fusion.absorb_length_le (F := Block.fusion) b post
      have same := absorb_addr b post
      rw [Fusion.search_absorb]
      generalize Block.fusion.absorb b post = absorbed at merges shorter same ⊢
      obtain ⟨a, rest⟩ := absorbed
      simp only at merges shorter same ⊢
      cases fits : a.fits sz with
      | true =>
          simp only [if_true, ensures_pure, report, SearchResult.list, List.nil_append, same]
          exact ⟨trivial, merges⟩
      | false =>
          have aHeader := merges.holds.header_at
          have read : Merges m' (pre ++ a :: rest) (m'.touched .read a.addr) (pre ++ a :: rest) :=
            .of_reads [a.addr] merges.holds rfl rfl rfl (by simp)
          simp only [Bool.false_eq_true, if_false, ensures_bind, ensures_loadNext, ← same, aHeader]
          cases rest with
          | nil =>
              obtain ⟨rounds, rfl⟩ : ∃ n, rounds = n + 1 := ⟨rounds - 1, by omega⟩
              simp only [searchLoop, headAddr_nil, if_true, ensures_pure, report,
                SearchResult.list, List.nil_append, true_and]
              exact merges.trans read
          | cons c rest =>
              have split : pre ++ a :: c :: rest = (pre ++ [a]) ++ c :: rest := by simp
              have onward := merges.trans read
              rw [split] at onward
              simp only [headAddr_cons]
              simp only [List.length_cons] at shorter
              refine (ih onward.holds (by omega)).mono ?_
              rintro r m'' ⟨rfl, later⟩
              refine ⟨by rw [report_cons], ?_⟩
              have whole := onward.trans later
              simpa using whole

theorem findGoodOrLast_searches {sz : Nat} (holds : Holds m.memory (pre ++ b :: post)) :
    Ensures (findGoodOrLast os b.addr sz) m fun r m' =>
      r = report (Block.fusion.search (Block.fits sz) b post) ∧
        Merges m (pre ++ b :: post) m'
          (pre ++ (Block.fusion.search (Block.fits sz) b post).list) := by
  have bNull := holds.wellFormed.nonnull (b := b) (by simp)
  simp only [findGoodOrLast, if_neg bNull]
  exact searchLoop_searches holds holds.rest_lt

end
end MemoryAllocator
