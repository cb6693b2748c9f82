import MemoryAllocator.FreeRuns

/-! The full effect of `_free`: which blocks become one, which bytes change, which headers are
touched, and that a second call finds nothing left to do. -/
namespace MemoryAllocator
open Foundation

/-- Nothing but the header of the block is written, its padding included; nothing at all where
there was no merge; a mark already set stays set; and only the headers of the block and of its
successor are touched, one of them to be initialised in case of a merge. -/
structure Touches (m : Machine) (block : Nat) (merged : Bool) (m' : Machine) : Prop where
  still : merged = false → m'.memory = m.memory
  outside : ∀ x, x < block ∨ block + 24 ≤ x → m'.memory x = m.memory x
  marked : m.memory (block + 16) = flagByte true → m'.memory (block + 16) = flagByte true
  accesses : ∃ new, m'.accesses = m.accesses ++ new ∧
    (∀ a ∈ new, a.header = block ∨
      a.header = (header m.memory block).next ∧ (header m.memory block).next ≠ null) ∧
    (new.countP fun a => a.kind == .init) = merged.toNat

section
variable {os : Platform} {m : Machine} {pre post : List Block} {b : Block}

theorem Touches.of_reads {block : Nat} {m' : Machine} (headers : List Nat)
    (memory : m'.memory = m.memory)
    (grown : m'.accesses = m.accesses ++ touches m.memory (headers.map fun h => (.read, h)))
    (inside : ∀ h ∈ headers, h = block ∨
      h = (header m.memory block).next ∧ (header m.memory block).next ≠ null) :
    Touches m block false m' := by
  refine ⟨fun _ => memory, fun x _ => congrFun memory x, fun set => ?_, _, grown, ?_, ?_⟩
  · rw [memory]
    exact set
  · intro a member
    obtain ⟨t, among, rfl⟩ := List.mem_map.mp member
    obtain ⟨h, listed, rfl⟩ := List.mem_map.mp among
    exact inside h listed
  · rw [Bool.toNat_false, List.countP_eq_zero]
    simp [touches]

theorem flag_of_init (memory : Memory) (block next : Nat) (capacity : BlockCapacity)
    (padding : Fin 7 → UInt8) :
    writeBytes memory block (headerBytes ⟨next, capacity, true⟩ padding) (block + 16) =
      flagByte true := by
  rw [headerBytes, ← List.append_assoc, writeBytes_append]
  have length : (leBytes 8 next ++ leBytes 8 capacity.bytes).length = 16 := by simp
  rw [length]
  exact writeBytes_head _ _ _ _

theorem Touches.of_init {block next : Nat} {capacity : BlockCapacity} {padding : Fin 7 → UInt8}
    {m' : Machine} (headers : List Nat)
    (memory : m'.memory = writeBytes m.memory block (headerBytes ⟨next, capacity, true⟩ padding))
    (grown : m'.accesses = m.accesses ++
      touches m.memory (headers.map (fun h => (.read, h)) ++ [(.init, block)]))
    (inside : ∀ h ∈ headers, h = block ∨
      h = (header m.memory block).next ∧ (header m.memory block).next ≠ null) :
    Touches m block true m' := by
  refine ⟨by simp, ?_, ?_, _, grown, ?_, ?_⟩
  · intro x outside
    rw [memory]
    exact writeBytes_outside (by simpa using outside)
  · rw [memory]
    exact fun _ => flag_of_init _ _ _ _ _
  · intro a member
    obtain ⟨t, among, rfl⟩ := List.mem_map.mp member
    rcases List.mem_append.mp among with read | init
    · obtain ⟨h, listed, rfl⟩ := List.mem_map.mp read
      exact inside h listed
    · obtain rfl := List.mem_singleton.mp init
      exact .inl rfl
  · simp [touches, List.countP_eq_zero]

theorem tryMergeWithNext_touches (os : Platform) (m : Machine) (block : Nat) :
    Ensures (tryMergeWithNext os block) m fun merged m' => Touches m block merged m' := by
  by_cases absent : block = null
  · simp only [tryMergeWithNext, if_pos absent, ensures_pure]
    exact .of_reads [] rfl (by simp [touches]) (by simp)
  generalize following : (header m.memory block).next = next
  by_cases alone : next = null
  · simp only [tryMergeWithNext, if_neg absent, ensures_bind, ensures_loadNext, following,
      if_pos alone, ensures_pure]
    exact .of_reads [block] rfl (by simp [touches]) (by simp)
  have around : ∀ headers : List Nat, (∀ h ∈ headers, h = block ∨ h = next) → ∀ h ∈ headers,
      h = block ∨ h = (header m.memory block).next ∧ (header m.memory block).next ≠ null := by
    rw [following]
    exact fun headers either h member => (either h member).imp_right fun same => ⟨same, alone⟩
  simp only [tryMergeWithNext, mergeable, blocksContinuous, blockAfter, if_neg absent, ensures_bind,
    ensures_loadNext, following, if_neg alone, ensures_loadIsFree, touched_memory]
  by_cases blockFree : (header m.memory block).isFree = true
  · simp only [blockFree, if_true, ensures_bind, ensures_loadIsFree, touched_memory]
    by_cases nextFree : (header m.memory next).isFree = true
    · simp only [nextFree, if_true, ensures_bind, ensures_loadCapacity, ensures_pure,
        touched_memory]
      by_cases meets :
          (next == (contents block + (header m.memory block).capacity.bytes) % 2 ^ 64) = true
      · simp only [meets, if_true, ensures_bind, ensures_loadCapacity, ensures_loadNext,
          ensures_blockInit, ensures_pure, touched_memory, following]
        exact .of_init [block, block, block, next, block, block, block, next, block, next] rfl
          (by simp [touches]) (around _ (by simp))
      · simp only [meets, Bool.false_eq_true, if_false, ensures_pure]
        exact .of_reads [block, block, block, next, block] rfl (by simp [touches])
          (around _ (by simp))
    · simp only [nextFree, Bool.false_eq_true, if_false, ensures_pure]
      exact .of_reads [block, block, block, next] rfl (by simp [touches]) (around _ (by simp))
  · simp only [blockFree, Bool.false_eq_true, if_false, ensures_pure]
    exact .of_reads [block, block, block] rfl (by simp [touches]) (around _ (by simp))

/-- Of the bytes only the header of the block changes, padding included, and a mark already set
stays set; of the headers only the given ones are touched. -/
structure Confined (m : Machine) (block : Nat) (headers : List Nat) (m' : Machine) : Prop where
  outside : ∀ x, x < block ∨ block + 24 ≤ x → m'.memory x = m.memory x
  marked : m.memory (block + 16) = flagByte true → m'.memory (block + 16) = flagByte true
  accesses : ∃ new, m'.accesses = m.accesses ++ new ∧ ∀ a ∈ new, a.header ∈ headers

theorem Confined.trans {m' m'' : Machine} {block : Nat} {headers headers' : List Nat}
    (first : Confined m block headers m') (second : Confined m' block headers' m'')
    (subset : headers' ⊆ headers) : Confined m block headers m'' := by
  obtain ⟨new, grown, listed⟩ := first.accesses
  obtain ⟨new', grown', listed'⟩ := second.accesses
  refine ⟨fun x apart => (second.outside x apart).trans (first.outside x apart),
    fun set => second.marked (first.marked set), new ++ new',
    by rw [grown', grown, List.append_assoc], ?_⟩
  intro a member
  rcases List.mem_append.mp member with early | late
  · exact listed a early
  · exact subset (listed' a late)

theorem Touches.confined {m' : Machine} {merged : Bool} (touched : Touches m b.addr merged m')
    (holds : Holds m.memory (pre ++ b :: post)) :
    Confined m b.addr ((b :: post).map Block.addr) m' := by
  obtain ⟨new, grown, around, _⟩ := touched.accesses
  refine ⟨touched.outside, touched.marked, new, grown, ?_⟩
  intro a member
  rw [holds.header_at] at around
  rcases around a member with same | ⟨same, nonnull⟩
  · simp [same]
  · cases post with
    | nil => exact absurd rfl nonnull
    | cons c rest => simp [same]

theorem mergeLoop_confined {rounds : Nat} (holds : Holds m.memory (pre ++ b :: post))
    (enough : post.length < rounds) :
    Ensures (mergeLoop os rounds b.addr) m fun _ m' =>
      Confined m b.addr ((b :: post).map Block.addr) m' := by
  induction post generalizing b m rounds with
  | nil =>
      obtain ⟨rounds, rfl⟩ := Nat.exists_eq_succ_of_ne_zero (Nat.ne_of_gt enough)
      apply Ensures.bind ((tryMergeWithNext_stays holds (by simp)).and
        (tryMergeWithNext_touches os m b.addr))
      rintro merged m' ⟨⟨rfl, _⟩, touched⟩
      simp only [Bool.false_eq_true, if_false, ensures_pure]
      exact touched.confined holds
  | cons c rest ih =>
      obtain ⟨rounds, rfl⟩ :=
        Nat.exists_eq_succ_of_ne_zero (Nat.ne_of_gt (Nat.zero_lt_of_lt enough))
      cases fusible : b.fusible c with
      | true =>
          apply Ensures.bind ((tryMergeWithNext_fuses holds fusible).and
            (tryMergeWithNext_touches os m b.addr))
          rintro merged m' ⟨⟨rfl, merges⟩, touched⟩
          have later := ih merges.holds (b := b.fuse c) (Nat.lt_of_succ_lt_succ enough)
          simp only [if_true]
          refine later.mono fun _ _ rest => (touched.confined holds).trans rest ?_
          exact List.cons_subset_cons _ (List.subset_cons_self _ _)
      | false =>
          apply Ensures.bind ((tryMergeWithNext_stays holds (by simpa using fusible)).and
            (tryMergeWithNext_touches os m b.addr))
          rintro merged m' ⟨⟨rfl, _⟩, touched⟩
          simp only [Bool.false_eq_true, if_false, ensures_pure]
          exact touched.confined holds

theorem mergeLoop_stays (rounds : Nat) (holds : Holds m.memory (pre ++ b :: post))
    (border : ∀ c ∈ post.head?, b.fusible c = false) :
    Ensures (mergeLoop os (rounds + 1) b.addr) m fun _ m' =>
      m'.memory = m.memory ∧ m'.calls = m.calls := by
  apply Ensures.bind ((tryMergeWithNext_stays holds border).and
    (tryMergeWithNext_touches os m b.addr))
  rintro merged m' ⟨⟨rfl, merges⟩, touched⟩
  simp only [Bool.false_eq_true, if_false, ensures_pure]
  exact ⟨touched.still rfl, merges.calls⟩

theorem free_confined (os : Platform) (holds : Holds m.memory (pre ++ b :: post)) :
    Ensures (free os b.contents) m fun _ m' =>
      Confined (m.released b.addr) b.addr ((b :: post).map Block.addr) m' := by
  have marked : Holds (m.released b.addr).memory (pre ++ b.release :: post) := holds.storeIsFree
  rw [ensures_free holds.wellFormed]
  exact mergeLoop_confined (b := b.release) marked (Nat.lt_of_succ_lt holds.rest_lt)

theorem writeBytes_same {memory : Memory} {address : Nat} {byte : UInt8}
    (same : memory address = byte) : writeBytes memory address [byte] = memory := by
  funext x
  by_cases here : x = address
  · subst here
    rw [writeBytes_head, same]
  · apply writeBytes_outside
    simp only [List.length_singleton]
    omega

theorem free_stays (os : Platform) (holds : Holds m.memory (pre ++ b :: post))
    (marked : m.memory (b.addr + 16) = flagByte true)
    (border : ∀ c ∈ post.head?, b.fusible c = false) :
    Ensures (free os b.contents) m fun _ m' => m'.memory = m.memory ∧ m'.calls = m.calls := by
  obtain ⟨rounds, bound⟩ : ∃ rounds, loopBound = rounds + 1 := ⟨2 ^ 64 - 1, rfl⟩
  have again : (m.released b.addr).memory = m.memory := writeBytes_same marked
  rw [ensures_free holds.wellFormed, bound]
  refine (mergeLoop_stays rounds (again.symm ▸ holds) border).mono ?_
  rintro _ m' ⟨memory, calls⟩
  exact ⟨memory.trans again, calls⟩

/-- The block list around a pointer: what stands before its block, the block, the longest run of
free blocks that touch it and one another, and the rest. -/
structure Parts (memory : Memory) (pointer : Nat) (pre : List Block) (b : Block)
    (run post : List Block) : Prop where
  chain : Chain memory heapStart (pre ++ b :: (run ++ post))
  pointer : b.contents = pointer
  free : ∀ c ∈ run, c.isFree = true
  touching : (b :: run).IsChain fun x y => y.addr = x.stop
  longest : ∀ z ∈ (b :: run).getLast?, ∀ c ∈ post.head?, ¬ (c.isFree = true ∧ c.addr = z.stop)

/-- The block freed, grown by the run and by its headers. -/
def Block.joined (b : Block) (run : List Block) : Block :=
  ⟨b.addr, b.capacity + (run.map fun c => c.capacity + contentsOffset).sum, true⟩

theorem fuseAll_release (b : Block) (run : List Block) :
    Block.fusion.fuseAll b.release run = b.joined run := by
  have capacity : ∀ {c : Block}, (Block.fusion.fuseAll c run).capacity =
      c.capacity + (run.map fun d => d.capacity + contentsOffset).sum := by
    induction run with
    | nil => exact (Nat.add_zero _).symm
    | cons d run ih =>
        intro c
        have joined : Block.fusion.fuseAll c (d :: run) = Block.fusion.fuseAll (c.fuse d) run := rfl
        rw [joined, ih]
        simp only [Block.fuse, Block.size, List.map_cons, List.sum_cons]
        omega
  have addr := fuseAll_addr b.release run
  have isFree := fuseAll_isFree b.release run
  have grown := capacity (c := b.release)
  generalize Block.fusion.fuseAll b.release run = merged at addr isFree grown ⊢
  cases merged
  simp only at addr isFree grown
  simp only [Block.joined, addr, isFree, grown]
  rfl

theorem touching_release {run : List Block} :
    ((b.release :: run).IsChain fun x y => y.addr = x.stop) ↔
      (b :: run).IsChain fun x y => y.addr = x.stop := by
  cases run with
  | nil => exact iff_of_true (List.isChain_singleton _) (List.isChain_singleton _)
  | cons c run => exact Iff.rfl.trans (by rw [List.isChain_cons_cons, List.isChain_cons_cons]; rfl)

theorem joined_stop {run : List Block}
    (chain : (b.release :: run).IsChain fun x y => Block.fusion.fusible x y = true) :
    ∀ z ∈ (b :: run).getLast?, (b.joined run).stop = z.stop := by
  intro z last
  rw [← fuseAll_release]
  cases run with
  | nil =>
      obtain rfl := Option.some.inj last
      rfl
  | cons c run => exact fuseAll_stop chain z last

namespace Parts

variable {pointer : Nat} {run : List Block}

theorem fusibles (parts : Parts m.memory pointer pre b run post) :
    (b.release :: run).IsChain fun x y => Block.fusion.fusible x y = true := by
  apply chain_fusible
  · intro c member
    rcases List.mem_cons.mp member with rfl | later
    · rfl
    · exact parts.free c later
  · exact touching_release.mpr parts.touching

theorem border (parts : Parts m.memory pointer pre b run post) :
    ∀ c ∈ post.head?, (b.joined run).fusible c = false := by
  intro c head
  by_contra fusible
  obtain ⟨_, cFree, touch⟩ := Block.fusible_iff.mp (Bool.eq_true_of_not_eq_false fusible)
  cases last : (b :: run).getLast? with
  | none => simp at last
  | some z =>
      rw [joined_stop parts.fusibles z last] at touch
      exact parts.longest z last c head ⟨cFree, touch⟩

theorem absorbed (parts : Parts m.memory pointer pre b run post) :
    Block.fusion.absorb b.release (run ++ post) = (b.joined run, post) := by
  rw [← fuseAll_release]
  refine Fusion.absorb_chain parts.fusibles fun c head => ?_
  have border := parts.border c head
  rwa [← fuseAll_release] at border

theorem of_chain {rest : List Block} (chain : Chain m.memory heapStart (pre ++ b :: rest)) :
    ∃ run post, Parts m.memory b.contents pre b run post := by
  obtain ⟨run, split, _, fusibles, border⟩ :=
    Fusion.absorb_run (F := Block.fusion) b.release rest
  obtain ⟨free, touching⟩ := chain_touching (a := b.release) rfl fusibles
  refine ⟨run, _, split ▸ chain, rfl, fun c member => free c (List.mem_cons_of_mem _ member),
    touching_release.mp touching, ?_⟩
  rintro z last c head ⟨cFree, touch⟩
  rw [← joined_stop fusibles z last] at touch
  have apart := border c head
  rw [fuseAll_release] at apart
  have fusible : Block.fusion.fusible (b.joined run) c = true :=
    Block.fusible_iff.mpr ⟨rfl, cFree, touch⟩
  exact absurd fusible (Bool.eq_false_iff.mp apart)

end Parts

theorem Confined.released {m' : Machine} {headers : List Nat}
    (confined : Confined (m.released b.addr) b.addr headers m') (listed : b.addr ∈ headers) :
    (∀ x, x < b.addr ∨ b.addr + 24 ≤ x → m'.memory x = m.memory x) ∧
      m'.memory (b.addr + 16) = flagByte true ∧
      ∃ new, m'.accesses = m.accesses ++ new ∧ ∀ a ∈ new, a.header ∈ headers := by
  obtain ⟨new, grown, inside⟩ := confined.accesses
  refine ⟨?_, confined.marked (writeBytes_head _ _ _ _), _,
    grown.trans (List.append_assoc _ _ _), ?_⟩
  · intro x outside
    refine (confined.outside x outside).trans (writeBytes_outside ?_)
    simp only [List.length_singleton]
    omega
  · intro a member
    rcases List.mem_append.mp member with mark | later
    · obtain rfl := List.mem_singleton.mp mark
      exact listed
    · exact inside a later

end

/-- A call of `_free` joins the block with the run behind it and changes nothing else: not the
other blocks, not a byte outside the header of the block, and no header off the list is
touched. A second call changes no byte. -/
theorem free_exact {os : Platform} {s : System} {a : Allocation} (reachable : Reachable os s)
    (live : a ∈ s.live) :
    (∃ pre b run post, Parts s.machine.memory a.pointer pre b run post) ∧
      ∀ pre b run post, Parts s.machine.memory a.pointer pre b run post →
        ∃ m', free os a.pointer s.machine = some ((), m') ∧
          Chain m'.memory heapStart (pre ++ b.joined run :: post) ∧
          m'.calls = s.machine.calls ∧
          (∀ x, x < b.addr ∨ b.addr + 24 ≤ x → m'.memory x = s.machine.memory x) ∧
          (∃ new, m'.accesses = s.machine.accesses ++ new ∧
            ∀ t ∈ new, t.header ∈ (pre ++ b :: (run ++ post)).map Block.addr) ∧
          ∃ m'', free os a.pointer m' = some ((), m'') ∧ m''.memory = m'.memory ∧
            m''.calls = m'.calls := by
  obtain ⟨blocks, invariant⟩ := reachable.invariant
  constructor
  · obtain ⟨pre, b, rest, rfl, _, serves⟩ := invariant.block_of_live live
    obtain ⟨run, post, parts⟩ := Parts.of_chain invariant.heap.chain
    exact ⟨pre, b, run, post, serves.pointer ▸ parts⟩
  · intro pre b run post parts
    obtain rfl := invariant.heap.unique parts.chain
    have holds := invariant.heap.holds
    obtain ⟨_, m', returned, merges, confined⟩ :=
      (free_absorbs os holds).and (free_confined os holds)
    have heap' := invariant.heap.free merges
    obtain ⟨outside, marked, new, grown, listed⟩ := confined.released (by simp)
    have left : ListAllocator.free b.contents (pre ++ b :: (run ++ post)) =
        pre ++ b.joined run :: post := by
      rw [free_at holds.wellFormed, parts.absorbed]
    rw [left] at heap'
    obtain ⟨_, m'', again, memory, calls⟩ :=
      free_stays os (b := b.joined run) heap'.holds marked parts.border
    rw [parts.pointer] at returned
    have same : (b.joined run).contents = a.pointer := parts.pointer
    rw [same] at again
    refine ⟨m', returned, heap'.chain, merges.calls, outside, ⟨new, grown, ?_⟩, m'', again, memory,
      calls⟩
    intro t member
    rw [List.map_append]
    exact List.mem_append_right _ (listed t member)

/-- The first of three blocks is freed twice after the second was freed. -/
theorem free_exact_of_three : ∃ s m' m'',
    session granting 8175 [.malloc 100, .malloc 200, .malloc 300, .free 67371142] = some s ∧
    free granting 67371025 s.machine = some ((), m') ∧
    free granting 67371025 m' = some ((), m'') ∧ m''.memory = m'.memory ∧
    ∃ (pre run post : List Block) (b : Block), b.contents = 67371025 ∧
      Chain m'.memory heapStart (pre ++ b.joined run :: post) := by
  have started : (session granting 8175
      [.malloc 100, .malloc 200, .malloc 300, .free 67371142]).map (·.live) =
        some [⟨67371359, 300⟩, ⟨67371025, 100⟩] := by
    decide +kernel
  obtain ⟨s, returned, live⟩ := Option.map_eq_some_iff.mp started
  have reachable := session_reachable (by decide) (by decide) returned
  obtain ⟨⟨pre, b, run, post, parts⟩, freed⟩ :=
    free_exact reachable (a := ⟨67371025, 100⟩) (by simp [live])
  obtain ⟨m', first, chain, _, _, _, m'', second, memory, _⟩ := freed pre b run post parts
  exact ⟨s, m', m'', returned, first, second, memory, pre, run, post, b, parts.pointer, chain⟩

end MemoryAllocator
