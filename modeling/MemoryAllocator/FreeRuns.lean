import MemoryAllocator.Ownership

/-! Runs of neighbours. A search joins the free runs of a list, so a request is decided by how
much the runs hold together, whatever pieces they are in. -/
namespace MemoryAllocator
open Foundation

/-- A maximal sequence of list-consecutive blocks of one kind, each beginning where the one
before it ends. -/
structure MaximalRun (among : Block → Prop) (blocks pre run post : List Block) : Prop where
  split : blocks = pre ++ (run ++ post)
  nonempty : run ≠ []
  all : ∀ b ∈ run, among b
  touching : run.IsChain fun a b => b.addr = a.stop
  left : ∀ a ∈ pre.getLast?, ∀ b ∈ run.head?, ¬ (among a ∧ b.addr = a.stop)
  right : ∀ a ∈ run.getLast?, ∀ b ∈ post.head?, ¬ (among b ∧ b.addr = a.stop)

abbrev FreeRun : List Block → List Block → List Block → List Block → Prop :=
  MaximalRun fun b => b.isFree = true

/-- The capacity of a run once its blocks are joined: each header but the first is gained. -/
def mergedCapacity (run : List Block) : Nat :=
  (run.map Block.capacity).sum + contentsOffset * (run.length - 1)

/-- The cells of a run, headers included. -/
def extent (run : List Block) : Nat := (run.map Block.size).sum

/-- The first maximal run that is large. -/
structure FirstRun (among : Block → Prop) (enough : List Block → Prop)
    (blocks pre run post : List Block) : Prop where
  maximal : MaximalRun among blocks pre run post
  large : enough run
  first : ∀ pre' run' post', MaximalRun among blocks pre' run' post' →
    pre'.length < pre.length → ¬ enough run'

theorem extent_eq {run : List Block} (nonempty : run ≠ []) :
    extent run = mergedCapacity run + contentsOffset := by
  induction run with
  | nil => exact absurd rfl nonempty
  | cons b rest ih =>
      simp only [extent, mergedCapacity, List.map_cons, List.sum_cons, List.length_cons,
        Block.size, contentsOffset] at ih ⊢
      cases rest with
      | nil => simp; omega
      | cons c rest =>
          have later := ih (List.cons_ne_nil _ _)
          simp only [List.length_cons] at later ⊢
          omega

section
variable {pre run post blocks : List Block} {a b : Block}

theorem fuseAll_addr (a : Block) (run : List Block) :
    (Block.fusion.fuseAll a run).addr = a.addr := by
  induction run generalizing a with
  | nil => rfl
  | cons b rest ih => exact ih (a.fuse b)

theorem fuseAll_isFree (a : Block) (run : List Block) :
    (Block.fusion.fuseAll a run).isFree = a.isFree := by
  induction run generalizing a with
  | nil => rfl
  | cons b rest ih => exact ih (a.fuse b)

theorem fuseAll_capacity (a : Block) (run : List Block) :
    (Block.fusion.fuseAll a run).capacity = mergedCapacity (a :: run) := by
  induction run generalizing a with
  | nil => simp [Fusion.fuseAll, mergedCapacity]
  | cons b rest ih =>
      have joined : Block.fusion.fuseAll a (b :: rest) = Block.fusion.fuseAll (a.fuse b) rest := rfl
      rw [joined, ih]
      simp only [mergedCapacity, List.map_cons, List.sum_cons, List.length_cons, Block.fuse,
        Block.size, contentsOffset]
      omega

theorem fuseAll_stop (chain : (a :: run).IsChain fun x y => Block.fusion.fusible x y = true) :
    ∀ z ∈ (a :: run).getLast?, (Block.fusion.fuseAll a run).stop = z.stop := by
  induction run generalizing a with
  | nil => simp [Fusion.fuseAll]
  | cons b rest ih =>
      obtain ⟨fusible, chain⟩ := List.isChain_cons_cons.mp chain
      have touching := (Block.fusible_iff.mp fusible).2.2
      have later := ih (Fusion.chain_fuse (F := Block.fusion) fusible chain)
      intro z last
      rw [List.getLast?_cons_cons] at last
      cases rest with
      | nil =>
          obtain rfl := Option.some.inj last
          exact Block.fuse_stop touching
      | cons c rest =>
          rw [List.getLast?_cons_cons] at last
          exact later z (by rwa [List.getLast?_cons_cons])

theorem chain_fusible (free : ∀ b ∈ run, b.isFree = true)
    (touching : run.IsChain fun a b => b.addr = a.stop) :
    run.IsChain fun a b => Block.fusion.fusible a b = true := by
  induction run with
  | nil => exact List.isChain_nil
  | cons a rest ih =>
      cases rest with
      | nil => exact List.isChain_singleton _
      | cons b rest =>
          obtain ⟨touch, touching⟩ := List.isChain_cons_cons.mp touching
          refine List.isChain_cons_cons.mpr ⟨?_, ih (fun c member => free c (by simp [member]))
            touching⟩
          exact Block.fusible_iff.mpr ⟨free a (by simp), free b (by simp), touch⟩

theorem chain_touching (first : a.isFree = true)
    (chain : (a :: run).IsChain fun x y => Block.fusion.fusible x y = true) :
    (∀ b ∈ a :: run, b.isFree = true) ∧ (a :: run).IsChain fun x y => y.addr = x.stop := by
  induction run generalizing a with
  | nil => exact ⟨by simpa using first, List.isChain_singleton _⟩
  | cons b rest ih =>
      obtain ⟨fusible, chain⟩ := List.isChain_cons_cons.mp chain
      obtain ⟨_, bFree, touch⟩ := Block.fusible_iff.mp fusible
      obtain ⟨free, touching⟩ := ih bFree chain
      refine ⟨?_, List.isChain_cons_cons.mpr ⟨touch, touching⟩⟩
      intro c member
      rcases List.mem_cons.mp member with rfl | later
      · exact first
      · exact free c later

theorem MaximalRun.longest (free : FreeRun blocks pre (a :: run) post) :
    Block.fusion.Longest pre a run post := by
  have chain := chain_fusible free.all free.touching
  refine ⟨chain, ?_, ?_⟩
  · intro x last
    have border := free.left x last a rfl
    have aFree := free.all a List.mem_cons_self
    by_contra fusible
    obtain ⟨xFree, _, touch⟩ := Block.fusible_iff.mp (Bool.eq_true_of_not_eq_false fusible)
    exact border ⟨xFree, touch⟩
  · intro y head
    by_contra fusible
    obtain ⟨_, yFree, touch⟩ := Block.fusible_iff.mp (Bool.eq_true_of_not_eq_false fusible)
    cases last : (a :: run).getLast? with
    | none => simp at last
    | some z =>
        rw [fuseAll_stop chain z last] at touch
        exact free.right z last y head ⟨yFree, touch⟩

theorem freeRun_of_longest (longest : Block.fusion.Longest pre a run post)
    (first : a.isFree = true) : FreeRun (pre ++ a :: (run ++ post)) pre (a :: run) post := by
  obtain ⟨free, touching⟩ := chain_touching first longest.chain
  refine ⟨rfl, List.cons_ne_nil _ _, free, touching, ?_, ?_⟩
  · rintro x last b head ⟨xFree, touch⟩
    obtain rfl := Option.some.inj head
    have fusible : Block.fusion.fusible x a = true := Block.fusible_iff.mpr ⟨xFree, first, touch⟩
    exact absurd fusible (Bool.eq_false_iff.mp (longest.left x last))
  · rintro z last y head ⟨yFree, touch⟩
    rw [← fuseAll_stop longest.chain z last] at touch
    have fusible : Block.fusion.fusible (Block.fusion.fuseAll a run) y = true :=
      Block.fusible_iff.mpr ⟨(fuseAll_isFree a run).trans first, yFree, touch⟩
    exact absurd fusible (Bool.eq_false_iff.mp (longest.right y head))

theorem MaximalRun.settles (free : FreeRun blocks pre (a :: run) post) :
    Block.fusion.coalesce blocks =
      Block.fusion.coalesce pre ++ Block.fusion.fuseAll a run :: Block.fusion.coalesce post := by
  rw [free.split]
  exact free.longest.coalesce

theorem freeRun_of_settled {x y : List Block} {f : Block} (free : f.isFree = true)
    (settled : Block.fusion.coalesce blocks = x ++ f :: y) :
    ∃ pre a run post, FreeRun blocks pre (a :: run) post ∧ Block.fusion.fuseAll a run = f ∧
      Block.fusion.coalesce pre = x ∧ Block.fusion.coalesce post = y := by
  obtain ⟨pre, a, run, post, rfl, front, rfl, back, longest⟩ := Fusion.coalesce_eq_append settled
  have first : a.isFree = true := (fuseAll_isFree a run).symm.trans free
  exact ⟨pre, a, run, post, freeRun_of_longest longest first, rfl, front, back⟩

theorem fits_fuseAll {query : Nat} (free : a.isFree = true) :
    (Block.fusion.fuseAll a run).fits query = true ↔ query ≤ mergedCapacity (a :: run) := by
  rw [Block.fits_iff, fuseAll_isFree, fuseAll_capacity]
  exact and_iff_right free

theorem MaximalRun.settles_in_front {front back : List Block}
    (free : FreeRun (front ++ back) pre (a :: run) post) (earlier : pre.length < front.length) :
    ∃ rest, rest ≠ [] ∧ Block.fusion.coalesce front = Block.fusion.coalesce pre ++ rest := by
  have among : front ++ back = pre ++ a :: (run ++ post) := free.split
  obtain ⟨more, rfl⟩ : pre <+: front :=
    List.prefix_of_prefix_length_le ⟨_, among.symm⟩ ⟨back, rfl⟩ earlier.le
  have nonempty : more ≠ [] := by
    rintro rfl
    simp at earlier
  refine ⟨Block.fusion.coalesce more, Fusion.coalesce_ne_nil nonempty, ?_⟩
  apply Fusion.coalesce_append
  intro x last b head
  rw [List.append_assoc, List.append_cancel_left_eq] at among
  obtain rfl : b = a := by
    cases more with
    | nil => cases head
    | cons c more => exact (Option.some.inj head).symm.trans (List.cons.inj among).1
  exact free.longest.left x last

end

section
variable {query : Nat} {blocks : List Block}

/-- A free run as large as a request asks for. -/
abbrev Large (query : Nat) (run : List Block) : Prop := query ≤ mergedCapacity run

/-- A large run is the first one if no block is large that the runs before it join to. -/
theorem firstRun_of_bad {pre run post : List Block} {a : Block}
    (free : FreeRun blocks pre (a :: run) post)
    (fits : (Block.fusion.fuseAll a run).fits query = true)
    (bad : ∀ b ∈ Block.fusion.coalesce pre, b.fits query = false) :
    FirstRun (fun b => b.isFree = true) (Large query) blocks pre (a :: run) post := by
  refine ⟨free, (fits_fuseAll (free.all a List.mem_cons_self)).mp fits, ?_⟩
  intro pre' run' post' free' earlier large
  cases run' with
  | nil => exact free'.nonempty rfl
  | cons a' run' =>
      -- the block of the earlier run stands before the block that was found
      have both := free'.settles.symm.trans free.settles
      obtain ⟨rest, nonempty, front⟩ := MaximalRun.settles_in_front (free.split ▸ free') earlier
      rw [front, List.append_assoc, List.append_cancel_left_eq] at both
      cases rest with
      | nil => exact nonempty rfl
      | cons c rest =>
          obtain ⟨rfl, _⟩ := List.cons.inj both
          have small := bad (Block.fusion.fuseAll a' run') (by simp [front])
          rw [(fits_fuseAll (free'.all a' List.mem_cons_self)).mpr large] at small
          cases small

theorem found_first_run {before after : List Block} {good : Block}
    (searched : Searched query blocks (.found before good after)) :
    ∃ pre a run post, FirstRun (fun b => b.isFree = true) (Large query) blocks pre (a :: run) post ∧
      a.contents = good.contents := by
  obtain ⟨fits, bad⟩ := searched.decides
  have settled : Block.fusion.coalesce blocks = before ++ good :: Block.fusion.coalesce after :=
    searched.fused
  obtain ⟨pre, a, run, post, free, rfl, rfl, _⟩ :=
    freeRun_of_settled (Block.fits_iff.mp fits).1 settled
  exact ⟨pre, a, run, post, firstRun_of_bad free fits bad,
    congrArg (· + contentsOffset) (fuseAll_addr a run).symm⟩

theorem exhausted_small {before : List Block} {last : Block}
    (searched : Searched query blocks (.exhausted before last)) {pre run post : List Block}
    (free : FreeRun blocks pre run post) : ¬ Large query run := by
  intro large
  cases run with
  | nil => exact free.nonempty rfl
  | cons a run =>
      have settled : Block.fusion.coalesce blocks = before ++ [last] := searched.fused
      have member : Block.fusion.fuseAll a run ∈ before ++ [last] := by
        rw [← settled, free.settles]
        simp
      have small := searched.decides _ member
      rw [(fits_fuseAll (free.all a List.mem_cons_self)).mpr large] at small
      cases small

theorem exhausted_last {before : List Block} {last : Block}
    (searched : Searched query blocks (.exhausted before last)) {pre run : List Block} {a : Block}
    (free : FreeRun blocks pre (a :: run) []) :
    last.isFree = true ∧ last.contents = a.contents := by
  have settled : Block.fusion.coalesce blocks = before ++ [last] := searched.fused
  obtain ⟨_, rfl⟩ := List.append_singleton_inj.mp (settled.symm.trans free.settles)
  refine ⟨(fuseAll_isFree a run).trans (free.all a List.mem_cons_self), ?_⟩
  exact congrArg (· + contentsOffset) (fuseAll_addr a run)

theorem exhausted_last_taken {before : List Block} {last : Block}
    (searched : Searched query blocks (.exhausted before last))
    (none : ∀ pre run, ¬ FreeRun blocks pre run []) : last.isFree = false := by
  by_contra free
  obtain ⟨pre, a, run, post, ends, _, _, behind⟩ :=
    freeRun_of_settled (Bool.eq_true_of_not_eq_false free) searched.fused
  obtain rfl := Fusion.coalesce_eq_nil behind
  exact none pre (a :: run) ends

end
end MemoryAllocator
