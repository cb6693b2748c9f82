import MemoryAllocator.Region
import MemoryAllocator.Foundation.Search

/-! The allocator seen as a list of blocks. Nothing here reads memory: a block is an address,
a capacity and a mark, free neighbours fuse, and `mmap` is a function from the calls made so
far to an answer. -/
namespace MemoryAllocator
open Foundation

structure Block where
  addr : Nat
  capacity : Nat
  isFree : Bool
  deriving DecidableEq, Repr

namespace Block

def contents (b : Block) : Nat := b.addr + contentsOffset

def size (b : Block) : Nat := contentsOffset + b.capacity

def stop (b : Block) : Nat := b.addr + b.size

def span (b : Block) : Span := ⟨b.addr, b.size⟩

/-- Two free blocks, the second where the first ends. -/
def fusible (a b : Block) : Bool := a.isFree && b.isFree && b.addr == a.stop

def fuse (a b : Block) : Block := { a with capacity := a.capacity + b.size }

theorem contents_ne_null (b : Block) : b.contents ≠ null := by
  simp only [contents, contentsOffset, null]
  omega

theorem fusible_iff {a b : Block} :
    a.fusible b = true ↔ a.isFree = true ∧ b.isFree = true ∧ b.addr = a.stop := by
  simp [fusible, and_assoc]

@[simp] theorem fuse_addr (a b : Block) : (a.fuse b).addr = a.addr := rfl

@[simp] theorem fuse_isFree (a b : Block) : (a.fuse b).isFree = a.isFree := rfl

theorem fuse_stop {a b : Block} (touching : b.addr = a.stop) : (a.fuse b).stop = b.stop := by
  simp only [fuse, stop, size] at touching ⊢
  omega

theorem taken_not_fusible_left {a : Block} (taken : a.isFree = false) (b : Block) :
    a.fusible b = false := by
  simp [fusible, taken]

theorem taken_not_fusible_right {b : Block} (taken : b.isFree = false) (a : Block) :
    a.fusible b = false := by
  simp [fusible, taken]

/-- Free neighbours fuse: the header between them becomes capacity. -/
def fusion : Fusion Block where
  fusible := fusible
  fuse := fuse
  fusible_fuse_left := by
    intro a b c fusible
    obtain ⟨aFree, bFree, touching⟩ := fusible_iff.mp fusible
    simp [Block.fusible, aFree, bFree, fuse_stop touching]
  fusible_fuse_right := by
    intro a b c _
    rfl
  fuse_assoc := by
    intro a b c _ _
    simp [fuse, size]
    omega

/-- Whether a block can serve a request of the given size. -/
def fits (query : Nat) (b : Block) : Bool := b.isFree && decide (query ≤ b.capacity)

theorem fits_iff {query : Nat} {b : Block} :
    b.fits query = true ↔ b.isFree = true ∧ query ≤ b.capacity := by
  simp [fits]

def take (b : Block) : Block := { b with isFree := false }

def release (b : Block) : Block := { b with isFree := true }

def Splittable (b : Block) (query : Nat) : Prop :=
  query + contentsOffset + blockMinCapacity ≤ b.capacity

instance (b : Block) (query : Nat) : Decidable (b.Splittable query) :=
  inferInstanceAs (Decidable (_ ≤ _))

/-- The taken front of a block that is split at a request. -/
def front (b : Block) (query : Nat) : Block := ⟨b.addr, query, false⟩

/-- The free rest of a block that is split at a request. -/
def rest (b : Block) (query : Nat) : Block :=
  ⟨b.contents + query, b.capacity - query - contentsOffset, true⟩

/-- The taken block, and the free rest where it is large enough to be a block. -/
def carve (query : Nat) (b : Block) : List Block :=
  if b.Splittable query then [b.front query, b.rest query] else [b.take]

/-- The block of `carve` that is handed out. -/
def served (query : Nat) (b : Block) : Block :=
  if b.Splittable query then b.front query else b.take

end Block

/-- All cells of all blocks, headers included, in list order. -/
def extents (blocks : List Block) : List Nat := footprint (blocks.map Block.span)

def takens (blocks : List Block) : List Block := blocks.filter fun b => !b.isFree

@[simp] theorem extents_nil : extents [] = [] := rfl

@[simp] theorem extents_cons (b : Block) (blocks : List Block) :
    extents (b :: blocks) = b.span.cells ++ extents blocks := rfl

@[simp] theorem extents_append (l m : List Block) : extents (l ++ m) = extents l ++ extents m := by
  simp [extents]

@[simp] theorem takens_append (l m : List Block) : takens (l ++ m) = takens l ++ takens m := by
  simp [takens]

theorem takens_cons_free {b : Block} (free : b.isFree = true) (blocks : List Block) :
    takens (b :: blocks) = takens blocks := by
  simp [takens, free]

theorem takens_cons_taken {b : Block} (taken : b.isFree = false) (blocks : List Block) :
    takens (b :: blocks) = b :: takens blocks := by
  simp [takens, taken]

@[simp] theorem mem_takens {b : Block} {blocks : List Block} :
    b ∈ takens blocks ↔ b ∈ blocks ∧ b.isFree = false := by
  simp [takens]

theorem mem_extents {blocks : List Block} {x : Nat} :
    x ∈ extents blocks ↔ ∃ b ∈ blocks, b.addr ≤ x ∧ x < b.stop := by
  simp [extents, mem_footprint, Block.span, Block.stop, Span.stop]

theorem not_mem_extents_singleton {b : Block} {x : Nat} :
    x ∉ extents [b] ↔ x < b.addr ∨ b.stop ≤ x := by
  simp only [mem_extents, List.mem_singleton, exists_eq_left, not_and, not_lt]
  omega

theorem extents_fuse {a b : Block} (fusible : a.fusible b = true) (blocks : List Block) :
    extents (a.fuse b :: blocks) = extents (a :: b :: blocks) := by
  obtain ⟨_, _, touching⟩ := Block.fusible_iff.mp fusible
  have joined := cells_append a.addr a.size b.size
  simp only [extents_cons, Span.cells, Block.span, ← List.append_assoc]
  rw [touching, Block.stop, joined]
  simp only [Block.fuse, Block.size, Nat.add_assoc]

theorem extents_fuses {l m : List Block} (fuses : Block.fusion.Fuses l m) :
    extents m = extents l := by
  apply fuses.invariant
  intro pre a b post fusible
  simp only [extents_append]
  exact congrArg _ (extents_fuse fusible post)

theorem takens_fuses {l m : List Block} (fuses : Block.fusion.Fuses l m) : takens m = takens l := by
  apply fuses.invariant
  intro pre a b post fusible
  obtain ⟨aFree, bFree, _⟩ := Block.fusible_iff.mp fusible
  have fused : takens (a.fuse b :: post) = takens (a :: b :: post) := by
    rw [takens_cons_free (b := a.fuse b) aFree, takens_cons_free aFree, takens_cons_free bFree]
  simp only [takens_append]
  exact congrArg _ fused

/-- Fusing never makes a new address. -/
theorem addr_of_fuses {l m : List Block} (fuses : Block.fusion.Fuses l m) :
    ∀ b ∈ m, ∃ a ∈ l, a.addr = b.addr := by
  induction fuses with
  | refl => exact fun b member => ⟨b, member, rfl⟩
  | tail _ last ih =>
      cases last with
      | @fuse pre a b post fusible =>
          intro c member
          rcases List.mem_append.mp member with front | back
          · exact ih c (List.mem_append_left _ front)
          · rcases List.mem_cons.mp back with rfl | back
            · obtain ⟨d, inside, same⟩ := ih a (by simp)
              exact ⟨d, inside, same⟩
            · exact ih c (by simp [back])

def MinCapacity (blocks : List Block) : Prop := ∀ b ∈ blocks, blockMinCapacity ≤ b.capacity

/-- One block is replaced by others. -/
theorem MinCapacity.replace {pre post : List Block} {b : Block}
    (large : MinCapacity (pre ++ b :: post)) (mid : List Block) (new : MinCapacity mid) :
    MinCapacity (pre ++ (mid ++ post)) := by
  intro c member
  simp only [List.mem_append] at member
  rcases member with front | middle | back
  · exact large c (List.mem_append_left _ front)
  · exact new c middle
  · exact large c (by simp [back])

theorem MinCapacity.fuses {l m : List Block} (fuses : Block.fusion.Fuses l m)
    (large : MinCapacity l) : MinCapacity m := by
  induction fuses with
  | refl => exact large
  | tail _ last ih =>
      cases last with
      | @fuse pre a b post fusible =>
          intro c member
          rcases List.mem_append.mp member with front | back
          · exact ih c (List.mem_append_left _ front)
          · rcases List.mem_cons.mp back with rfl | back
            · have bound := ih a (by simp)
              exact bound.trans (Nat.le_add_right _ _)
            · exact ih c (by simp [back])

theorem carve_eq (query : Nat) (b : Block) :
    b.carve query = b.served query :: if b.Splittable query then [b.rest query] else [] := by
  unfold Block.carve Block.served
  split <;> rfl

@[simp] theorem served_addr (query : Nat) (b : Block) : (b.served query).addr = b.addr := by
  unfold Block.served
  split <;> rfl

@[simp] theorem served_isFree (query : Nat) (b : Block) : (b.served query).isFree = false := by
  unfold Block.served
  split <;> rfl

@[simp] theorem served_contents (query : Nat) (b : Block) :
    (b.served query).contents = b.contents := by
  simp [Block.contents]

/-- The served block is large enough and wastes at most 40 bytes. -/
theorem served_capacity {query : Nat} {b : Block} (fits : query ≤ b.capacity) :
    query ≤ (b.served query).capacity ∧ (b.served query).capacity ≤ query + 40 := by
  unfold Block.served
  split
  · simp [Block.front]
  · rename_i small
    simp only [Block.Splittable, contentsOffset, blockMinCapacity] at small
    simp only [Block.take]
    omega

theorem extents_carve (query : Nat) (b : Block) (blocks : List Block) :
    extents (b.carve query ++ blocks) = extents (b :: blocks) := by
  unfold Block.carve
  split
  · rename_i splittable
    simp only [Block.Splittable, contentsOffset, blockMinCapacity] at splittable
    have halves := cells_append b.addr (contentsOffset + query) (b.capacity - query)
    have border : b.contents + query = b.addr + (contentsOffset + query) := by
      simp only [Block.contents]
      omega
    have back : contentsOffset + (b.capacity - query - contentsOffset) = b.capacity - query := by
      simp only [contentsOffset]
      omega
    have whole : contentsOffset + query + (b.capacity - query) = contentsOffset + b.capacity := by
      omega
    rw [whole] at halves
    simp only [List.cons_append, List.nil_append, extents_cons, Span.cells, Block.span, Block.front,
      Block.rest, Block.size, border, back, ← List.append_assoc, halves]
  · rfl

theorem takens_carve (query : Nat) (b : Block) : takens (b.carve query) = [b.served query] := by
  rw [carve_eq, takens_cons_taken (served_isFree query b)]
  split <;> rfl

end MemoryAllocator
