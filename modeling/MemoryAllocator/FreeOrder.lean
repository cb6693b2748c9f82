import MemoryAllocator.Refinement

/-! The order of frees. Merging looks forward only, so different orders leave different lists;
but all of them leave the blocks that were freed free, and joining them ends the same way. -/
namespace MemoryAllocator
open Foundation

/-- The block with its mark set, if its pointer is among those freed. -/
def releaseAmong (pointers : List Nat) (b : Block) : Block :=
  if b.contents ∈ pointers then b.release else b

theorem releaseAmong_free {b : Block} (free : b.isFree = true) (pointers : List Nat) :
    releaseAmong pointers b = b := by
  unfold releaseAmong
  split
  · rw [Block.release, ← free]
  · rfl

theorem releaseAmong_cons (pointer : Nat) (pointers : List Nat) :
    releaseAmong (pointer :: pointers) = releaseAmong pointers ∘ releaseAmong [pointer] := by
  funext b
  simp only [Function.comp_apply]
  by_cases first : b.contents = pointer
  · have set : releaseAmong [pointer] b = b.release := if_pos (List.mem_singleton.mpr first)
    rw [set, releaseAmong_free (b := b.release) rfl]
    exact if_pos (first ▸ List.mem_cons_self)
  · have kept : releaseAmong [pointer] b = b := if_neg (by simpa using first)
    rw [kept]
    simp only [releaseAmong, List.mem_cons, first, false_or]

theorem releaseAmong_perm {pointers pointers' : List Nat} (order : pointers'.Perm pointers) :
    releaseAmong pointers' = releaseAmong pointers := by
  funext b
  simp only [releaseAmong, order.mem_iff]

/-- Joining free neighbours and setting marks do not get in each other's way. -/
theorem Fuses.released {l m : List Block} (fuses : Block.fusion.Fuses l m) (pointers : List Nat) :
    Block.fusion.Fuses (l.map (releaseAmong pointers)) (m.map (releaseAmong pointers)) := by
  apply Fusion.Fuses.map _ fuses
  intro a b fusible
  obtain ⟨aFree, bFree, _⟩ := Block.fusible_iff.mp fusible
  exact ⟨releaseAmong_free aFree _, releaseAmong_free bFree _,
    releaseAmong_free (b := a.fuse b) aFree _⟩

theorem free_fuses {pre post : List Block} {b : Block} (wf : WellFormed (pre ++ b :: post)) :
    Block.fusion.Fuses ((pre ++ b :: post).map (releaseAmong [b.contents]))
      (ListAllocator.free b.contents (pre ++ b :: post)) := by
  have around : ∀ l : List Block, l ⊆ pre ++ post → l.map (releaseAmong [b.contents]) = l := by
    intro l subset
    refine (List.map_congr_left ?_).trans (List.map_id l)
    intro c member
    exact if_neg (by simpa using contents_ne wf.addr_nodup (subset member))
  have marked : (pre ++ b :: post).map (releaseAmong [b.contents]) = pre ++ b.release :: post := by
    rw [List.map_append, List.map_cons, around pre (List.subset_append_left _ _),
      around post (List.subset_append_right _ _)]
    simp [releaseAmong]
  have absorbed := (Fusion.absorb_fuses (F := Block.fusion) b.release post).context pre []
  simp only [List.append_nil] at absorbed
  rw [marked, free_at wf]
  exact absorbed

section
variable {os : Platform} {s s' : System} {blocks : List Block} {pointers : List Nat}

/-- Frees made one after the other leave, up to joining, the list with all those marks set. -/
theorem Invariant.frees (invariant : Invariant os s blocks)
    (run : Run (AdmissibleStep os) s (pointers.map .free) s') :
    s'.machine.calls = s.machine.calls ∧
      s'.live = s.live.filter (fun a => a.pointer ∉ pointers) ∧
      ∃ blocks', Invariant os s' blocks' ∧ Block.fusion.coalesce blocks' =
        Block.fusion.coalesce (blocks.map (releaseAmong pointers)) := by
  induction pointers generalizing s blocks with
  | nil =>
      cases run
      have same : releaseAmong [] = id := by
        funext b
        simp [releaseAmong]
      refine ⟨rfl, by simp, blocks, invariant, by rw [same, List.map_id]⟩
  | cons pointer rest ih =>
      cases run with
      | cons first later =>
          obtain ⟨⟨a, member, same⟩, calls, lives, invariant'⟩ := invariant.after_free first.safe
          obtain ⟨calls', lives', blocks', ended, settled⟩ := ih invariant' later
          refine ⟨calls'.trans calls, ?_, blocks', ended, ?_⟩
          · rw [lives', lives, dropped, List.filter_filter]
            congr 1
            funext c
            apply Bool.eq_iff_iff.mpr
            simp [and_comm]
          · obtain ⟨pre, b, post, rfl, _, serves⟩ := invariant.block_of_live member
            rw [settled, ← same, ← serves.pointer, releaseAmong_cons, ← List.map_map]
            exact Fusion.coalesce_of_fuses
              (Fuses.released (free_fuses invariant.heap.holds.wellFormed) rest)

theorem Invariant.frees_return (invariant : Invariant os s blocks) (distinct : pointers.Nodup)
    (live : ∀ p ∈ pointers, p ∈ s.live.map Allocation.pointer) :
    ∃ s', Run (AdmissibleStep os) s (pointers.map .free) s' := by
  induction pointers generalizing s blocks with
  | nil => exact ⟨s, .nil s⟩
  | cons pointer rest ih =>
      obtain ⟨fresh, others⟩ := List.nodup_cons.mp distinct
      obtain ⟨a, member, rfl⟩ := List.mem_map.mp (live pointer List.mem_cons_self)
      obtain ⟨m', returned⟩ := invariant.free_returns member
      have step : AdmissibleStep os s (.free a.pointer) ⟨m', dropped s.live a.pointer⟩ :=
        ⟨trivial, .free member returned⟩
      have remaining : ∀ p ∈ rest,
          p ∈ (dropped s.live a.pointer).map Allocation.pointer := by
        intro p among
        obtain ⟨c, inside, rfl⟩ := List.mem_map.mp (live p (List.mem_cons_of_mem _ among))
        refine List.mem_map_of_mem (mem_dropped.mpr ⟨inside, ?_⟩)
        rintro same
        exact fresh (same ▸ among)
      obtain ⟨s', later⟩ := ih (invariant.free_step member returned).2 others remaining
      exact ⟨s', .cons step later⟩

end

/-- Live pointers may be freed in any order: the heaps that two orders leave are equal once
free neighbours are joined, and no later requests can tell them apart. -/
theorem frees_commute {os : Platform} {s : System} (reachable : Reachable os s)
    {pointers pointers' : List Nat} (distinct : pointers.Nodup)
    (live : ∀ p ∈ pointers, p ∈ s.live.map Allocation.pointer) (order : pointers'.Perm pointers) :
    (∃ s₁, Run (AdmissibleStep os) s (pointers.map .free) s₁) ∧
    (∃ s₂, Run (AdmissibleStep os) s (pointers'.map .free) s₂) ∧
    ∀ s₁ s₂, Run (AdmissibleStep os) s (pointers.map .free) s₁ →
      Run (AdmissibleStep os) s (pointers'.map .free) s₂ →
      s₁.machine.calls = s₂.machine.calls ∧
      (∃ l₁ l₂, Chain s₁.machine.memory heapStart l₁ ∧ Chain s₂.machine.memory heapStart l₂ ∧
        Block.fusion.coalesce l₁ = Block.fusion.coalesce l₂) ∧
      ∀ os' : Platform, os'.pageSize = os.pageSize →
        os'.since s₂.machine.calls = os.since s₁.machine.calls →
        ∀ actions t₁, Run (AdmissibleStep os) s₁ actions t₁ →
          (∃ t₂, Run (AdmissibleStep os') s₂ actions t₂) ∧
          ∀ actions' t₂, Run (AdmissibleStep os') s₂ actions' t₂ →
            actions.filterMap Action.request = actions'.filterMap Action.request →
            replies Action.request Action.reply actions =
                replies Action.request Action.reply actions' ∧
              t₁.machine.calls = t₂.machine.calls := by
  obtain ⟨blocks, invariant⟩ := reachable.invariant
  refine ⟨invariant.frees_return distinct live, ?_, ?_⟩
  · exact invariant.frees_return (order.nodup_iff.mpr distinct)
      fun p member => live p (order.mem_iff.mp member)
  · intro s₁ s₂ run₁ run₂
    obtain ⟨calls₁, live₁, l₁, invariant₁, settled₁⟩ := invariant.frees run₁
    obtain ⟨calls₂, live₂, l₂, invariant₂, settled₂⟩ := invariant.frees run₂
    rw [releaseAmong_perm order] at settled₂
    have calls : s₁.machine.calls = s₂.machine.calls := calls₁.trans calls₂.symm
    have settled := settled₁.trans settled₂.symm
    refine ⟨calls, ⟨l₁, l₂, invariant₁.heap.chain, invariant₂.heap.chain, settled⟩, ?_⟩
    intro os' page since actions t₁ run
    have lives : s₁.live = s₂.live := by
      rw [live₁, live₂]
      congr 1
      funext a
      simp only [order.mem_iff]
    have alike : Alike os os' s₁.machine.calls s₂.machine.calls s₁ s₂ :=
      ⟨lives, ⟨Block.fusion.coalesce l₁, [], Fusion.coalesce_separated l₁⟩,
        ⟨l₁, invariant₁, rfl, (List.append_nil _).symm⟩,
        ⟨l₂, invariant₂.other_system page, settled.symm, (List.append_nil _).symm⟩⟩
    obtain ⟨mirrored, agree⟩ := alike.later page since run
    refine ⟨mirrored, fun actions' t₂ run' requests => ?_⟩
    obtain ⟨same, later, grown₁, grown₂⟩ := agree actions' t₂ run' requests
    exact ⟨same, by rw [grown₁, grown₂, calls]⟩

theorem frees_commute_of_two : ∃ s s₁ s₂ l₁ l₂,
    session granting 8175 [.malloc 100, .malloc 200, .malloc 300] = some s ∧
    Run (AdmissibleStep granting) s [.free 67371025, .free 67371142] s₁ ∧
    Run (AdmissibleStep granting) s [.free 67371142, .free 67371025] s₂ ∧
    Chain s₁.machine.memory heapStart l₁ ∧ Chain s₂.machine.memory heapStart l₂ ∧
    Block.fusion.coalesce l₁ = Block.fusion.coalesce l₂ := by
  have started : (session granting 8175 [.malloc 100, .malloc 200, .malloc 300]).map
      (fun s => s.live.map Allocation.pointer) = some [67371359, 67371142, 67371025] := by
    decide +kernel
  obtain ⟨s, returned, live⟩ := Option.map_eq_some_iff.mp started
  have reachable := session_reachable (by decide) (by decide) returned
  have among : ∀ p ∈ [67371025, 67371142], p ∈ s.live.map Allocation.pointer := by
    rw [live]
    decide
  obtain ⟨⟨s₁, run₁⟩, ⟨s₂, run₂⟩, agree⟩ :=
    frees_commute reachable (by decide) among (List.Perm.swap 67371025 67371142 [])
  obtain ⟨_, ⟨l₁, l₂, chain₁, chain₂, settled⟩, _⟩ := agree s₁ s₂ run₁ run₂
  exact ⟨s, s₁, s₂, l₁, l₂, returned, run₁, run₂, chain₁, chain₂, settled⟩

end MemoryAllocator
