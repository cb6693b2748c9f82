import MemoryAllocator.Cost
import MemoryAllocator.Retry
import MemoryAllocator.FreshHeap

/-! What a single call of `_free` can cost. A freed block joins what follows it and nothing in
front of it, so blocks freed from left to right stay apart until one before them is freed. -/
namespace MemoryAllocator
open Foundation

/-- Blocks of the least capacity, one behind the other from `x` on. -/
def leasts (isFree : Bool) (x : Nat) : Nat → List Block
  | 0 => []
  | n + 1 => ⟨x, blockMinCapacity, isFree⟩ :: leasts isFree (x + leastRest) n

theorem least_place (x n : Nat) :
    x + leastRest + leastRest * n = x + leastRest * (n + 1) := by
  rw [Nat.mul_succ]
  omega

theorem leasts_succ (isFree : Bool) (x n : Nat) : leasts isFree x (n + 1) =
    leasts isFree x n ++ [⟨x + leastRest * n, blockMinCapacity, isFree⟩] := by
  induction n generalizing x with
  | zero => simp [leasts]
  | succ n ih =>
      rw [leasts, ih (x + leastRest), least_place]
      rfl

theorem leasts_length (isFree : Bool) (x n : Nat) : (leasts isFree x n).length = n := by
  induction n generalizing x with
  | zero => rfl
  | succ n ih => exact congrArg Nat.succ (ih _)

theorem leasts_taken {x n : Nat} {b : Block} (member : b ∈ leasts false x n) :
    b.isFree = false := by
  induction n generalizing x with
  | zero => cases member
  | succ n ih =>
      rcases List.mem_cons.mp member with rfl | later
      · rfl
      · exact ih later

/-- A chain of free blocks is absorbed by a free block in front of it. -/
theorem absorb_leasts {b c : Block} {n : Nat} {post : List Block} (free : b.isFree = true)
    (taken : c.isFree = false) :
    (Block.fusion.absorb b (leasts true b.stop n ++ c :: post)).2 = c :: post := by
  induction n generalizing b with
  | zero =>
      have apart : Block.fusion.fusible b c = false := Block.taken_not_fusible_right taken b
      simp [leasts, Fusion.absorb, apart]
  | succ n ih =>
      have fusible : Block.fusion.fusible b ⟨b.stop, blockMinCapacity, true⟩ = true :=
        Block.fusible_iff.mpr ⟨free, rfl, rfl⟩
      have stop : b.stop + leastRest = (b.fuse ⟨b.stop, blockMinCapacity, true⟩).stop := by
        rw [Block.fuse_stop rfl]
        rfl
      rw [leasts, List.cons_append, Fusion.absorb, if_pos fusible, stop]
      exact ih free

theorem separated_taken {front : List Block} (taken : ∀ b ∈ front, b.isFree = false)
    (g : Block) : Block.fusion.Separated (front ++ [g]) := by
  induction front with
  | nil => exact List.isChain_singleton g
  | cons b rest ih =>
      have first := Block.taken_not_fusible_left (taken b List.mem_cons_self)
      have others := ih fun c member => taken c (List.mem_cons_of_mem b member)
      cases rest with
      | nil => exact List.isChain_cons_cons.mpr ⟨first g, others⟩
      | cons c rest => exact List.isChain_cons_cons.mpr ⟨first c, others⟩

section
variable {os : Platform} {s : System} {pre post : List Block} {b c g : Block}

theorem admissible_least (os : Platform) : Admissible os.pageSize blockMinCapacity := by
  obtain ⟨k, small, page⟩ := os.pageSize_pow
  have bound : 2 ^ k < 2 ^ 31 := Nat.pow_lt_pow_right (by decide) small
  have rounded := roundUp_lt os.pageSize_pos (blockMinCapacity + contentsOffset)
  rw [Admissible, max_self]
  simp only [blockMinCapacity, contentsOffset] at rounded ⊢
  omega

/-- A least request is served from the free block behind the taken ones. -/
theorem Invariant.serve_least {front : List Block} (invariant : Invariant os s (front ++ [g]))
    (taken : ∀ b ∈ front, b.isFree = false) (free : g.isFree = true)
    (room : leastRest + blockMinCapacity ≤ g.capacity) :
    ∃ s', AdmissibleStep os s (.malloc blockMinCapacity g.contents) s' ∧
      Invariant os s' (front ++ [⟨g.addr, blockMinCapacity, false⟩] ++
        [⟨g.addr + leastRest, g.capacity - leastRest, true⟩]) := by
  have ready : Ready (max blockMinCapacity blockMinCapacity) front g [] := by
    constructor
    · exact separated_taken taken g
    · simp
    · intro b member
      simp [Block.fits, taken b member]
    · refine Block.fits_iff.mpr ⟨free, ?_⟩
      simp only [leastRest, contentsOffset, blockMinCapacity] at room ⊢
      omega
  obtain ⟨s', _, step, _⟩ := ready.pair invariant (by decide) (admissible_least os)
  obtain ⟨_, _, _, invariant'⟩ :=
    invariant.after_malloc step.safe (ready.malloc os.pageSize (os.since s.machine.calls))
  have splittable : g.Splittable blockMinCapacity := by
    simp only [Block.Splittable]
    simp only [leastRest] at room
    omega
  have carved : g.carve (max blockMinCapacity blockMinCapacity) =
      [⟨g.addr, blockMinCapacity, false⟩,
        ⟨g.addr + leastRest, g.capacity - leastRest, true⟩] := by
    rw [max_self, Block.carve, if_pos splittable, Block.front, Block.rest, Block.contents,
      leastRest, Nat.add_assoc, Nat.sub_sub, Nat.add_comm blockMinCapacity]
  rw [carved, List.append_nil] at invariant'
  rw [List.append_assoc]
  exact ⟨s', step, invariant'⟩

theorem Invariant.serve_leasts {n k : Nat}
    (invariant : Invariant os s (leasts false heapStart n ++ [g]))
    (place : g.addr = heapStart + leastRest * n) (free : g.isFree = true)
    (room : leastRest * k + blockMinCapacity ≤ g.capacity) :
    ∃ actions s' g', Run (AdmissibleStep os) s actions s' ∧ actions.length = k ∧
      Invariant os s' (leasts false heapStart (n + k) ++ [g']) := by
  induction k generalizing n s g with
  | zero => exact ⟨[], s, g, .nil s, rfl, invariant⟩
  | succ k ih =>
      rw [Nat.mul_succ] at room
      obtain ⟨s₁, step, next⟩ :=
        invariant.serve_least (fun b member => leasts_taken member) free (by omega)
      rw [place, ← leasts_succ] at next
      obtain ⟨actions, s', g', run, counted, ended⟩ :=
        ih next (by rw [Nat.mul_succ, Nat.add_assoc]) rfl (by simp only; omega)
      rw [Nat.add_right_comm] at ended
      exact ⟨_, s', g', .cons step run, congrArg Nat.succ counted, ended⟩

theorem Invariant.free_taken {blocks : List Block} (invariant : Invariant os s blocks)
    (member : b ∈ blocks) (taken : b.isFree = false) :
    ∃ s' absorbed, AdmissibleStep os s (.free b.contents) s' ∧
      Invariant os s' (ListAllocator.free b.contents blocks) ∧
      (ListAllocator.free b.contents blocks).length + absorbed = blocks.length ∧
      Needs s.machine s'.machine (11 * absorbed) := by
  obtain ⟨a, live, pointer⟩ := invariant.owned.owned b (mem_takens.mpr ⟨member, taken⟩)
  obtain ⟨m', returned⟩ := invariant.free_returns live
  obtain ⟨absorbed, fewer, invariant', _, needs⟩ := invariant.free_cost live returned
  rw [← pointer]
  exact ⟨_, absorbed, ⟨trivial, .free live returned⟩, invariant', fewer, needs⟩

/-- Blocks freed from left to right, up to one that is kept, are not joined. -/
theorem Invariant.free_leasts {n x : Nat}
    (invariant : Invariant os s (pre ++ (leasts false x (n + 1) ++ post))) :
    ∃ actions s', Run (AdmissibleStep os) s actions s' ∧ actions.length = n ∧
      Invariant os s' (pre ++ (leasts true x n ++
        ⟨x + leastRest * n, blockMinCapacity, false⟩ :: post)) := by
  induction n generalizing pre s x with
  | zero => exact ⟨[], s, .nil s, rfl, invariant⟩
  | succ n ih =>
      obtain ⟨s₁, _, step, next, _⟩ :=
        invariant.free_taken (b := ⟨x, blockMinCapacity, false⟩) (by simp [leasts]) rfl
      have freed : ListAllocator.free (Block.contents ⟨x, blockMinCapacity, false⟩)
          (pre ++ (leasts false x (n + 2) ++ post)) =
            (pre ++ [⟨x, blockMinCapacity, true⟩]) ++
              (leasts false (x + leastRest) (n + 1) ++ post) := by
        have apart : Block.fusion.fusible ⟨x, blockMinCapacity, true⟩
            ⟨x + leastRest, blockMinCapacity, false⟩ = false := by
          simp [Block.fusion, Block.fusible]
        have wf := invariant.heap.holds.wellFormed
        rw [leasts, List.cons_append] at wf ⊢
        rw [free_at wf]
        simp [leasts, Fusion.absorb, Block.release, apart]
      rw [freed] at next
      obtain ⟨actions, s', run, counted, ended⟩ := ih next
      refine ⟨_, s', .cons step run, congrArg Nat.succ counted, ?_⟩
      rw [least_place] at ended
      simpa [leasts] using ended

/-- The call that joins them all. -/
theorem Invariant.free_before_leasts {n : Nat}
    (invariant : Invariant os s (b :: (leasts true b.stop n ++ c :: post)))
    (taken : b.isFree = false) (taken' : c.isFree = false) :
    ∃ s', AdmissibleStep os s (.free b.contents) s' ∧ Needs s.machine s'.machine (11 * n) := by
  obtain ⟨s', absorbed, step, _, shorter, needs⟩ := invariant.free_taken List.mem_cons_self taken
  have wf : WellFormed ([] ++ b :: (leasts true b.stop n ++ c :: post)) :=
    invariant.heap.holds.wellFormed
  have freed := free_at wf
  have kept : (Block.fusion.absorb b.release (leasts true b.stop n ++ c :: post)).2 = c :: post :=
    absorb_leasts (b := b.release) rfl taken'
  rw [kept, List.nil_append, List.nil_append] at freed
  rw [freed] at shorter
  simp only [List.length_cons, List.length_append, leasts_length] at shorter
  exact ⟨s', step, needs.mono (by omega)⟩

end

/-- On a heap just initialised `2 n + 2` calls can prepare a call of `_free` that makes `11 n`
accesses to headers, as long as the first region has room for the blocks. -/
theorem free_walks {os : Platform} {start : System} (started : Started os start) {n : Nat}
    (room : heapStart + leastRest * (n + 3) ≤ heapEnd start.machine.calls) :
    ∃ actions s pointer s', Run (AdmissibleStep os) start actions s ∧
      actions.length = 2 * n + 2 ∧ AdmissibleStep os s (.free pointer) s' ∧
      s.machine.accesses.length + 11 * n ≤ s'.machine.accesses.length := by
  obtain ⟨_, returned⟩ := started
  obtain ⟨_, stop⟩ := init_stop returned
  obtain ⟨_, invariant⟩ := init_invariant returned
  rw [stop] at room
  obtain ⟨served, s₁, g, run, counted, invariant₁⟩ :=
    invariant.serve_leasts (n := 0) (k := n + 2) rfl rfl (by
      simp only [freshBlock, leastRest, contentsOffset, blockMinCapacity] at room ⊢
      omega)
  rw [Nat.zero_add] at invariant₁
  -- the first block and the last are not among those freed
  have parts : Invariant os s₁ ([⟨heapStart, blockMinCapacity, false⟩] ++
      (leasts false (heapStart + leastRest) (n + 1) ++ [g])) := invariant₁
  obtain ⟨freed, s₂, run', counted', invariant₂⟩ := parts.free_leasts
  obtain ⟨s', step, needs⟩ := Invariant.free_before_leasts
    (b := ⟨heapStart, blockMinCapacity, false⟩) invariant₂ rfl rfl
  refine ⟨served ++ freed, s₂, _, s', run.append run', ?_, step, needs⟩
  rw [List.length_append, counted, counted']
  omega

/-- A hundred blocks in a region of two pages. -/
theorem free_walks_of_hundred : ∃ m actions s pointer s',
    heapInit granting 8175 ⟨fun _ => 0, [], []⟩ = some (heapStart, m) ∧
    Run (AdmissibleStep granting) ⟨m, []⟩ actions s ∧ actions.length = 202 ∧
    AdmissibleStep granting s (.free pointer) s' ∧
    s.machine.accesses.length + 1100 ≤ s'.machine.accesses.length := by
  obtain ⟨m, _, _, returned, started, _⟩ := sample_run
  have room : heapStart + leastRest * (100 + 3) ≤ heapEnd m.calls := by
    rw [(init_stop returned).2]
    decide
  obtain ⟨actions, s, pointer, s', run, counted, step, walked⟩ := free_walks started room
  exact ⟨m, actions, s, pointer, s', returned, run, counted, step, walked⟩

end MemoryAllocator
