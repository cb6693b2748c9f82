import MemoryAllocator.BlockList

/-! When a memory holds a list of blocks: the headers chain through `next` from the first
block to null, and the blocks tile addresses the machine has. -/
namespace MemoryAllocator
open Foundation

/-- Where a chain through these blocks and then to `tail` begins. -/
def headAddr (blocks : List Block) (tail : Nat) : Nat :=
  match blocks with
  | [] => tail
  | b :: _ => b.addr

/-- The headers of the blocks stand in memory, each pointing to the next and the last to
`tail`. -/
def Linked (memory : Memory) : List Block → Nat → Prop
  | [], _ => True
  | b :: rest, tail =>
      header memory b.addr = ⟨headAddr rest tail, ⟨b.capacity⟩, b.isFree⟩ ∧ Linked memory rest tail

/-- Following `next` from an address passes exactly these blocks and then reaches null. -/
structure Chain (memory : Memory) (start : Nat) (blocks : List Block) : Prop where
  start : headAddr blocks null = start
  linked : Linked memory blocks null
  nonnull : ∀ b ∈ blocks, b.addr ≠ null

structure WellFormed (blocks : List Block) : Prop where
  room : Room (2 ^ 64) (extents blocks)
  minCapacity : MinCapacity blocks

structure Holds (memory : Memory) (blocks : List Block) : Prop where
  wellFormed : WellFormed blocks
  linked : Linked memory blocks null

@[simp] theorem headAddr_nil (tail : Nat) : headAddr [] tail = tail := rfl

@[simp] theorem headAddr_cons (b : Block) (blocks : List Block) (tail : Nat) :
    headAddr (b :: blocks) tail = b.addr := rfl

theorem headAddr_append (l m : List Block) (tail : Nat) :
    headAddr (l ++ m) tail = headAddr l (headAddr m tail) := by
  cases l <;> rfl

theorem headAddr_replace {b c : Block} (same : c.addr = b.addr) (pre post post' : List Block)
    (tail : Nat) : headAddr (pre ++ c :: post') tail = headAddr (pre ++ b :: post) tail := by
  simp only [headAddr_append, headAddr_cons, same]

theorem headAddr_fuses {l m : List Block} (fuses : Block.fusion.Fuses l m) (tail : Nat) :
    headAddr m tail = headAddr l tail := by
  refine fuses.invariant (f := fun blocks => headAddr blocks tail) ?_
  intro pre a b post _
  exact headAddr_replace (b := a) (c := a.fuse b) rfl pre (b :: post) post tail

namespace WellFormed

theorem fuses {l m : List Block} (wf : WellFormed l) (fuses : Block.fusion.Fuses l m) :
    WellFormed m :=
  ⟨(extents_fuses fuses).symm ▸ wf.room, wf.minCapacity.fuses fuses⟩

theorem of_extents {l m : List Block} (wf : WellFormed l) (same : extents m = extents l)
    (large : MinCapacity m) : WellFormed m :=
  ⟨same.symm ▸ wf.room, large⟩

theorem size_pos (b : Block) : 0 < b.size := by
  simp only [Block.size, contentsOffset]
  omega

theorem addr_pos {blocks : List Block} (wf : WellFormed blocks) {b : Block} (member : b ∈ blocks) :
    0 < b.addr :=
  wf.room.span_start_pos (List.mem_map_of_mem member) (size_pos b)

theorem nonnull {blocks : List Block} (wf : WellFormed blocks) {b : Block} (member : b ∈ blocks) :
    b.addr ≠ null :=
  Nat.ne_of_gt (wf.addr_pos member)

theorem stop_lt {blocks : List Block} (wf : WellFormed blocks) {b : Block} (member : b ∈ blocks) :
    b.stop < 2 ^ 64 :=
  wf.room.span_stop_lt (List.mem_map_of_mem member) (size_pos b)

theorem pairwise {blocks : List Block} (wf : WellFormed blocks) :
    blocks.Pairwise fun a b => a.span.Apart b.span := by
  have positive : ∀ s ∈ blocks.map Block.span, 0 < s.length := by
    intro s member
    obtain ⟨b, _, rfl⟩ := List.mem_map.mp member
    exact size_pos b
  exact List.pairwise_map.mp (pairwise_apart_of_nodup positive wf.room.nodup)

theorem apart {pre post : List Block} {b : Block} (wf : WellFormed (pre ++ b :: post)) :
    ∀ c ∈ pre ++ post, c.stop ≤ b.addr ∨ b.stop ≤ c.addr := by
  have pairs := List.pairwise_append.mp wf.pairwise
  intro c member
  rcases List.mem_append.mp member with front | back
  · exact pairs.2.2 c front b (by simp)
  · exact ((List.pairwise_cons.mp pairs.2.1).1 c back).symm

theorem headAddr_lt {blocks post : List Block} (wf : WellFormed blocks)
    (inside : ∀ b ∈ post, b ∈ blocks) : headAddr post null < 2 ^ 64 := by
  cases post with
  | nil => simp [null]
  | cons b post =>
      have bound := wf.stop_lt (inside b List.mem_cons_self)
      simp only [Block.stop] at bound
      simp only [headAddr_cons]
      omega

theorem length_lt {blocks : List Block} (wf : WellFormed blocks) : blocks.length < 2 ^ 64 := by
  have cellsLt := wf.room.length_lt (by decide)
  have shorter : blocks.length ≤ (extents blocks).length := by
    clear wf cellsLt
    induction blocks with
    | nil => simp
    | cons b rest ih =>
        have nonempty := size_pos b
        simp only [List.length_cons, extents_cons, List.length_append, Span.cells, cells_length,
          Block.span]
        omega
  omega

end WellFormed

theorem linked_append {memory : Memory} {l m : List Block} {tail : Nat} :
    Linked memory (l ++ m) tail ↔ Linked memory l (headAddr m tail) ∧ Linked memory m tail := by
  induction l with
  | nil => simp [Linked]
  | cons b rest ih => simp only [List.cons_append, Linked, ih, headAddr_append, and_assoc]

theorem Linked.frame {memory memory' : Memory} {blocks : List Block} {tail : Nat}
    (linked : Linked memory blocks tail)
    (same : ∀ b ∈ blocks, ∀ x, b.addr ≤ x → x < b.addr + contentsOffset → memory' x = memory x) :
    Linked memory' blocks tail := by
  induction blocks with
  | nil => trivial
  | cons b rest ih =>
      refine ⟨(header_congr (same b List.mem_cons_self)).trans linked.1, ih linked.2 ?_⟩
      exact fun c member => same c (List.mem_cons_of_mem b member)

theorem Linked.header_at {memory : Memory} {pre post : List Block} {b : Block} {tail : Nat}
    (linked : Linked memory (pre ++ b :: post) tail) :
    header memory b.addr = ⟨headAddr post tail, ⟨b.capacity⟩, b.isFree⟩ :=
  (linked_append.mp linked).2.1

/-- Blocks in the middle of a chain are replaced: the new ones must be linked to what follows,
begin where the old ones began, and leave the headers around them alone. -/
theorem Linked.replace {memory memory' : Memory} {pre mid mid' post : List Block} {tail : Nat}
    (linked : Linked memory (pre ++ (mid ++ post)) tail)
    (begin' : headAddr (mid' ++ post) tail = headAddr (mid ++ post) tail)
    (same : ∀ b ∈ pre ++ post, ∀ x, b.addr ≤ x → x < b.addr + contentsOffset →
      memory' x = memory x)
    (placed : Linked memory' mid' (headAddr post tail)) :
    Linked memory' (pre ++ (mid' ++ post)) tail := by
  obtain ⟨front, rest⟩ := linked_append.mp linked
  obtain ⟨_, back⟩ := linked_append.mp rest
  refine linked_append.mpr ⟨?_, linked_append.mpr ⟨placed, ?_⟩⟩
  · rw [begin']
    exact front.frame fun b member => same b (List.mem_append_left post member)
  · exact back.frame fun b member => same b (List.mem_append_right pre member)

theorem Chain.unique {memory : Memory} {start : Nat} {l m : List Block}
    (left : Chain memory start l) (right : Chain memory start m) : l = m := by
  obtain ⟨lStart, lLinked, lNonnull⟩ := left
  obtain ⟨mStart, mLinked, mNonnull⟩ := right
  induction l generalizing m start with
  | nil =>
      cases m with
      | nil => rfl
      | cons b m => exact absurd (mStart.trans lStart.symm) (mNonnull b List.mem_cons_self)
  | cons a l ih =>
      cases m with
      | nil => exact absurd (lStart.trans mStart.symm) (lNonnull a List.mem_cons_self)
      | cons b m =>
          have addr : a.addr = b.addr := lStart.trans mStart.symm
          have same := lLinked.1.symm.trans ((congrArg (header memory) addr).trans mLinked.1)
          simp only [BlockHeader.mk.injEq, BlockCapacity.mk.injEq] at same
          obtain ⟨next, capacity, isFree⟩ := same
          have rest := ih next lLinked.2
            (fun c member => lNonnull c (List.mem_cons_of_mem a member))
            rfl mLinked.2 (fun c member => mNonnull c (List.mem_cons_of_mem b member))
          cases a
          cases b
          simp_all

theorem Holds.chain {memory : Memory} {blocks : List Block} {start : Nat}
    (holds : Holds memory blocks) (begin' : headAddr blocks null = start) :
    Chain memory start blocks :=
  ⟨begin', holds.linked, fun _ member => holds.wellFormed.nonnull member⟩

end MemoryAllocator
