import MemoryAllocator.Ownership

/-! The reference allocator. Free neighbours are always joined, so that what stands in the list
is what can be served: first fit over the list, growth at its end, and joining on both sides of
a freed block. -/
namespace MemoryAllocator
open Foundation

namespace EagerAllocator

/-- Growth: the region is joined to the last block when both are free and touch, appended
otherwise, and the request is allocated from it. -/
def grow (pageSize : Nat) (answer : Answers) (query : Nat) (blocks : List Block) (last : Block) :
    Reply :=
  let size := regionSize pageSize query
  let (region, events) := requestRegion answer last.stop size
  if region = mapFailed then
    ⟨null, blocks, events⟩
  else if last.fusible (freshBlock region size) then
    let joined := last.fuse (freshBlock region size)
    ⟨joined.contents, blocks.dropLast ++ joined.carve query, events⟩
  else
    ⟨(freshBlock region size).contents, blocks ++ (freshBlock region size).carve query, events⟩

/-- First fit: a large enough free block is taken, its remainder split off where it is a block. -/
def malloc (pageSize : Nat) (answer : Answers) (query : Nat) (blocks : List Block) : Reply :=
  let query := max query blockMinCapacity
  match firstFit (Block.fits query) blocks with
  | some (before, good, after) => ⟨good.contents, before ++ (good.carve query ++ after), []⟩
  | none =>
      match blocks.getLast? with
      | none => ⟨null, [], []⟩
      | some last => grow pageSize answer query blocks last

/-- The block is marked free and joined with both neighbours. -/
def free (pointer : Nat) (blocks : List Block) : List Block :=
  match firstFit (fun b => b.contents == pointer) blocks with
  | some (before, b, after) =>
      Block.fusion.joinLast before (Block.fusion.push b.release after)
  | none => blocks

end EagerAllocator

theorem coalesce_wall {w : Block} (taken : w.isFree = false) (pre post : List Block) :
    Block.fusion.coalesce (pre ++ w :: post) =
      Block.fusion.coalesce pre ++ w :: Block.fusion.coalesce post :=
  Fusion.coalesce_around (fun x => Block.taken_not_fusible_right taken x)
    (fun x => Block.taken_not_fusible_left taken x) pre post

theorem rest_fusible {b : Block} {query : Nat} (splittable : b.Splittable query)
    (free : b.isFree = true) (c : Block) : (b.rest query).fusible c = b.fusible c := by
  simp only [Block.Splittable, contentsOffset, blockMinCapacity] at splittable
  have stop : (b.rest query).stop = b.stop := by
    simp only [Block.rest, Block.stop, Block.size, Block.contents, contentsOffset]
    omega
  simp only [Block.fusible, stop, free]
  rfl

theorem coalesce_carve (pre post : List Block) {b : Block} (query : Nat) (free : b.isFree = true)
    (border : ∀ c ∈ post.head?, b.fusible c = false) :
    Block.fusion.coalesce (pre ++ (b.carve query ++ post)) =
      Block.fusion.coalesce pre ++ (b.carve query ++ Block.fusion.coalesce post) := by
  rw [carve_eq]
  simp only [List.cons_append]
  rw [coalesce_wall (served_isFree query b)]
  split
  · rename_i splittable
    have cut := Fusion.coalesce_append (F := Block.fusion) (l := [b.rest query]) (m := post) (by
      intro a only c head
      obtain rfl := Option.some.inj only
      exact (rest_fusible splittable free c).trans (border c head))
    rw [cut]
    rfl
  · rfl

theorem coalesce_prefix {pre post l : List Block}
    (same : Block.fusion.coalesce l = pre ++ post) : Block.fusion.coalesce pre = pre := by
  have separated := Fusion.coalesce_separated (F := Block.fusion) l
  rw [same] at separated
  exact Fusion.coalesce_of_separated (List.IsChain.left_of_append separated)

section
variable {pageSize query : Nat} {answer : Answers} {blocks : List Block} {r : Reply}

theorem found_border {before after : List Block} {good : Block}
    (searched : Searched query blocks (.found before good after)) :
    ∀ c ∈ after.head?, good.fusible c = false := by
  have separated := Fusion.coalesce_separated (F := Block.fusion) blocks
  rw [searched.fused] at separated
  have back : Block.fusion.Separated (good :: Block.fusion.coalesce after) :=
    List.IsChain.right_of_append separated
  cases after with
  | nil => simp
  | cons c rest =>
      obtain ⟨d, tail, same, fusible⟩ := Fusion.coalesce_head (F := Block.fusion) c rest
      rw [same] at back
      intro e head
      obtain rfl := Option.some.inj head
      exact (fusible good).symm.trans (List.isChain_cons_cons.mp back).1

theorem grow_settled {before front : List Block} {last block : Block} {region : Nat}
    {events : List MmapEvent}
    (settled : Block.fusion.coalesce (before ++ [last]) = before ++ [last])
    (asked : requestRegion answer last.stop (regionSize pageSize query) = (region, events))
    (mapped : region ≠ mapFailed)
    (grew : growth before last (freshBlock region (regionSize pageSize query)) = (front, block))
    (fits : query ≤ block.capacity) :
    EagerAllocator.grow pageSize answer query (before ++ [last]) last =
      ⟨block.contents, Block.fusion.coalesce (front ++ serveLast query block), events⟩ := by
  have carved : Block.fusion.coalesce (front ++ serveLast query block) =
      Block.fusion.coalesce front ++ block.carve query := by
    have cut := coalesce_carve front [] query (growth_takens rfl grew).2 (by simp)
    rw [List.append_nil] at cut
    rw [serveLast, if_pos fits, cut]
    exact congrArg _ (List.append_nil _)
  rw [carved]
  simp only [EagerAllocator.grow, asked, if_neg mapped]
  unfold growth at grew
  split at grew
  · rename_i fusible
    obtain ⟨rfl, rfl⟩ := Prod.mk.inj grew
    rw [if_pos fusible, List.dropLast_concat, coalesce_prefix settled]
  · rename_i apart
    obtain ⟨rfl, rfl⟩ := Prod.mk.inj grew
    rw [if_neg apart, settled]

/-- The lazy allocator answers as the reference does on the settled list, and settles to what
the reference leaves. -/
theorem eager_malloc (outcome : Outcome pageSize answer (max query blockMinCapacity) blocks r)
    (serves : ∀ {before last region events},
      Searched (max query blockMinCapacity) blocks (.exhausted before last) →
      requestRegion answer last.stop (regionSize pageSize (max query blockMinCapacity)) =
        (region, events) → region ≠ mapFailed → max query blockMinCapacity ≤
          (freshBlock region (regionSize pageSize (max query blockMinCapacity))).capacity) :
    EagerAllocator.malloc pageSize answer query (Block.fusion.coalesce blocks) =
      ⟨r.pointer, Block.fusion.coalesce r.blocks, r.events⟩ := by
  cases outcome with
  | @found before after good searched =>
      have free := (Block.fits_iff.mp searched.decides.1).1
      simp only [EagerAllocator.malloc, searched.firstFit_found]
      rw [coalesce_carve _ _ _ free (found_border searched), coalesce_prefix searched.fused]
  | @refused before last events searched asked =>
      have settled : Block.fusion.coalesce blocks = before ++ [last] := searched.fused
      have again := (Fusion.coalesce_coalesce (F := Block.fusion) blocks)
      simp only [EagerAllocator.malloc, searched.firstFit_exhausted]
      rw [settled] at again ⊢
      simp only [List.getLast?_concat, EagerAllocator.grow, asked, if_true, again]
  | @grown before front last block region events searched asked mapped grew =>
      have settled : Block.fusion.coalesce blocks = before ++ [last] := searched.fused
      have again := (Fusion.coalesce_coalesce (F := Block.fusion) blocks)
      have fits := growth_serves (serves searched asked mapped) grew
      simp only [EagerAllocator.malloc, searched.firstFit_exhausted]
      rw [settled] at again ⊢
      simp only [List.getLast?_concat]
      exact grow_settled again asked mapped grew fits

theorem contents_ne_of_fuses {pre pre' post : List Block} {b : Block}
    (distinct : ((pre ++ b :: post).map Block.addr).Nodup) (fuses : Block.fusion.Fuses pre pre') :
    ∀ c ∈ pre', (c.contents == b.contents) = false := by
  intro c member
  obtain ⟨d, inside, same⟩ := addr_of_fuses fuses c member
  have other := contents_ne distinct (List.mem_append_left post inside)
  refine beq_false_of_ne fun equal => other ?_
  simp only [Block.contents] at equal ⊢
  omega

/-- Freeing a taken block and settling the list is what the reference does to the settled one. -/
theorem eager_free {pre post : List Block} {b : Block} (wf : WellFormed (pre ++ b :: post))
    (taken : b.isFree = false) :
    EagerAllocator.free b.contents (Block.fusion.coalesce (pre ++ b :: post)) =
      Block.fusion.coalesce (ListAllocator.free b.contents (pre ++ b :: post)) := by
  have others := contents_ne_of_fuses wf.addr_nodup (Fusion.fuses_coalesce (F := Block.fusion) pre)
  have here : (b.contents == b.contents) = true := beq_self_eq_true _
  rw [coalesce_wall taken, EagerAllocator.free, firstFit_append _ others here]
  simp only
  have pushed : Block.fusion.push b.release (Block.fusion.coalesce post) =
      Block.fusion.coalesce (b.release :: post) := rfl
  rw [pushed, ← Fusion.coalesce_append_joinLast (Fusion.coalesce_separated pre)
    (Fusion.coalesce_separated _), Fusion.coalesce_append_coalesce]
  have absorbed := (Fusion.absorb_fuses (F := Block.fusion) b.release post).context pre []
  rw [free_at wf]
  simp only [List.append_nil] at absorbed
  rw [Fusion.coalesce_of_fuses absorbed]
  exact Fusion.coalesce_append_congr pre (Fusion.coalesce_coalesce (b.release :: post))

end

theorem separated_carve {pre post : List Block} {b : Block} (query : Nat) (free : b.isFree = true)
    (left : Block.fusion.Separated pre) (right : Block.fusion.Separated post)
    (border : ∀ c ∈ post.head?, b.fusible c = false) :
    Block.fusion.Separated (pre ++ (b.carve query ++ post)) := by
  have settled := coalesce_carve pre post query free border
  rw [Fusion.coalesce_of_separated left, Fusion.coalesce_of_separated right] at settled
  rw [← settled]
  exact Fusion.coalesce_separated _

theorem separated_carve_last {pre : List Block} {b : Block} (query : Nat) (free : b.isFree = true)
    (separated : Block.fusion.Separated pre) :
    Block.fusion.Separated (pre ++ b.carve query) := by
  have carved := separated_carve query free separated List.isChain_nil (by simp)
  rwa [List.append_nil] at carved

theorem EagerAllocator.grow_separated {pageSize query : Nat} {answer : Answers}
    {blocks : List Block} {last : Block} (separated : Block.fusion.Separated blocks) :
    Block.fusion.Separated (EagerAllocator.grow pageSize answer query blocks last).blocks := by
  unfold EagerAllocator.grow
  simp only
  split
  · exact separated
  · split
    · rename_i fusible
      have front : Block.fusion.Separated blocks.dropLast :=
        separated.prefix (List.dropLast_prefix _)
      exact separated_carve_last query (Block.fusible_iff.mp fusible).1 front
    · exact separated_carve_last query rfl separated

theorem EagerAllocator.malloc_separated {pageSize query : Nat} {answer : Answers}
    {blocks : List Block} (separated : Block.fusion.Separated blocks) :
    Block.fusion.Separated (EagerAllocator.malloc pageSize answer query blocks).blocks := by
  unfold EagerAllocator.malloc
  simp only
  split
  · rename_i before good after found
    obtain ⟨rfl, fits⟩ := firstFit_eq_some found
    have back : Block.fusion.Separated (good :: after) := List.IsChain.right_of_append separated
    have rear : Block.fusion.Separated after := back.tail
    refine separated_carve _ (Block.fits_iff.mp fits).1 (List.IsChain.left_of_append separated)
      rear ?_
    intro c head
    cases after with
    | nil => cases head
    | cons d rest =>
        obtain rfl := Option.some.inj head
        exact (List.isChain_cons_cons.mp back).1
  · split
    · exact List.isChain_nil
    · exact EagerAllocator.grow_separated separated

theorem EagerAllocator.free_separated {pointer : Nat} {blocks : List Block}
    (separated : Block.fusion.Separated blocks) :
    Block.fusion.Separated (EagerAllocator.free pointer blocks) := by
  unfold EagerAllocator.free
  split
  · rename_i before b after found
    obtain ⟨rfl, _⟩ := firstFit_eq_some found
    have back : Block.fusion.Separated (b :: after) := List.IsChain.right_of_append separated
    have rear : Block.fusion.Separated after := back.tail
    rw [← Fusion.coalesce_append_joinLast (List.IsChain.left_of_append separated)
      (Fusion.push_separated rear)]
    exact Fusion.coalesce_separated _
  · exact separated

/-- A settled list, and the calls of `mmap` made for it since some moment. -/
structure EagerState where
  blocks : List Block
  later : List MmapEvent
  separated : Block.fusion.Separated blocks

def EagerState.perform (pageSize : Nat) (answer : Answers) (e : EagerState) :
    Request → Nat × EagerState
  | .malloc query =>
      let r := EagerAllocator.malloc pageSize (fun more => answer (e.later ++ more)) query e.blocks
      (r.pointer, ⟨r.blocks, e.later ++ r.events, EagerAllocator.malloc_separated e.separated⟩)
  | .free pointer =>
      (null, ⟨EagerAllocator.free pointer e.blocks, e.later,
        EagerAllocator.free_separated e.separated⟩)

def EagerState.init (os : Platform) (initial : Nat) : EagerState :=
  let (region, events) := requestRegion (os.since []) heapStart (regionSize os.pageSize initial)
  ⟨[freshBlock region (regionSize os.pageSize initial)], events, List.isChain_singleton _⟩

/-- A machine whose list settles to the list of the reference. -/
def Settles (os : Platform) (calls : List MmapEvent) (s : System) (e : EagerState) : Prop :=
  ∃ blocks, Invariant os s blocks ∧ Block.fusion.coalesce blocks = e.blocks ∧
    s.machine.calls = calls ++ e.later

theorem settles_follows (os : Platform) (calls : List MmapEvent) :
    Follows (SafeStep os) Action.request Action.reply
      (EagerState.perform os.pageSize (os.since calls)) (Settles os calls) where
  silent := by
    rintro s s' e action ⟨blocks, invariant, settled, same⟩ ⟨_, step⟩ silent
    cases step with
    | malloc => cases silent
    | free => cases silent
    | write live lower upper =>
        exact ⟨blocks, invariant.write_step live lower upper, settled, same⟩
  matched := by
    rintro s s' ⟨settled, later, separated⟩ action request ⟨blocks, invariant, rfl, same⟩
      ⟨safe, step⟩ asked
    cases step with
    | @malloc m m' live query pointer _ returned =>
        obtain rfl := Option.some.inj asked
        obtain ⟨replied, grown, _, invariant'⟩ := invariant.malloc_step safe rfl returned
        have outcome := (invariant.heap.replied returned).outcome
        have eager := eager_malloc outcome (invariant.serves safe)
        simp only at same
        simp only [EagerState.perform, since_append, ← same, eager]
        exact ⟨replied, _, invariant', rfl,
          grown.trans ((congrArg (· ++ _) same).trans (List.append_assoc _ _ _))⟩
    | @free m m' live a member returned =>
        obtain rfl := Option.some.inj asked
        obtain ⟨kept, invariant'⟩ := invariant.free_step member returned
        obtain ⟨pre, b, post, rfl, taken, serves⟩ := invariant.block_of_live member
        have eager := eager_free invariant.heap.holds.wellFormed taken
        rw [serves.pointer] at eager
        exact ⟨rfl, _, invariant', eager.symm, kept.trans same⟩
    | write => cases asked

end MemoryAllocator
