import MemoryAllocator.Refinement

/-! Calls that should not have been. A client that frees null, or a block that is free already,
takes nothing from anyone, and no later request can tell that it did; and initialising the
heap once more leaves the heap there is alone. -/
namespace MemoryAllocator
open Foundation

inductive CarelessAction where
  | proper (action : Action)
  | stray (pointer : Nat)

/-- What is left of a careless client's action for a careful one. -/
def CarelessAction.careful : CarelessAction → Option Action
  | .proper action => some action
  | .stray _ => none

/-- A stray pointer is null, or the contents of a block of the list that is free. -/
inductive CarelessStep (os : Platform) : System → CarelessAction → System → Prop
  | proper {s s' : System} {action : Action} : AdmissibleStep os s action s' →
      CarelessStep os s (.proper action) s'
  | nothing {m m' : Machine} {live : List Allocation} :
      MemoryAllocator.free os null m = some ((), m') →
      CarelessStep os ⟨m, live⟩ (.stray null) ⟨m', live⟩
  | again {m m' : Machine} {live : List Allocation} {blocks : List Block} {b : Block} :
      Chain m.memory heapStart blocks → b ∈ blocks → b.isFree = true →
      MemoryAllocator.free os b.contents m = some ((), m') →
      CarelessStep os ⟨m, live⟩ (.stray b.contents) ⟨m', live⟩

/-- Freeing the pointer again takes nothing: it is null, or a block of the list that is free
still begins in front of it. -/
def Stray (m : Machine) (pointer : Nat) : Prop :=
  pointer = null ∨ ∃ blocks, Chain m.memory heapStart blocks ∧
    ∃ b ∈ blocks, b.isFree = true ∧ b.contents = pointer

theorem free_null (os : Platform) (m : Machine) : free os null m = some ((), m) := rfl

section
variable {os : Platform} {s s' : System} {blocks : List Block} {b : Block}

theorem Invariant.free_again (invariant : Invariant os s blocks) (member : b ∈ blocks)
    (free : b.isFree = true) :
    ∃ m', MemoryAllocator.free os b.contents s.machine = some ((), m') ∧
      m'.calls = s.machine.calls ∧
      Block.fusion.Fuses blocks (ListAllocator.free b.contents blocks) ∧
      Invariant os ⟨m', s.live⟩ (ListAllocator.free b.contents blocks) ∧
      ∀ x, Kept blocks x → m'.memory x = s.machine.memory x := by
  obtain ⟨pre, post, rfl⟩ := List.append_of_mem member
  have released : b.release = b := by
    rw [Block.release, ← free]
  have wf := invariant.heap.holds.wellFormed
  obtain ⟨_, m', returned, merges⟩ := free_absorbs os invariant.heap.holds
  have heap := invariant.heap.free merges
  rw [released] at merges
  refine ⟨m', returned, merges.calls, merges.fuses, ⟨heap, ?_, ?_⟩, ?_⟩
  · rw [takens_fuses merges.fuses]
    exact invariant.owned
  · rw [merges.calls]
    exact invariant.placed
  · intro x kept
    rw [merges.kept x kept]
    apply writeBytes_outside
    have outside := kept.outside_free wf free
    simp only [Block.stop, Block.size, contentsOffset, List.length_singleton] at outside ⊢
    omega

theorem Invariant.kept_of_live (invariant : Invariant os s blocks) {a : Allocation}
    (live : a ∈ s.live) {x : Nat} (lower : a.span.start ≤ x) (upper : x < a.span.stop) :
    Kept blocks x := by
  obtain ⟨pre, b, post, rfl, taken, serves⟩ := invariant.block_of_live live
  have pointer := serves.pointer
  have enough := serves.enough
  refine ⟨b, mem_takens.mpr ⟨by simp, taken⟩, ?_⟩
  simp only [Allocation.span, Span.stop, Block.contents, contentsOffset] at lower upper pointer
  simp only [Block.stop, Block.size, contentsOffset]
  omega

/-- A pointer freed twice in a row is stray the second time. -/
theorem Invariant.double_free (invariant : Invariant os s blocks) {a : Allocation}
    (live : a ∈ s.live) : ∃ s' s'', AdmissibleStep os s (.free a.pointer) s' ∧
      CarelessStep os s' (.stray a.pointer) s'' := by
  obtain ⟨pre, b, post, rfl, _, serves⟩ := invariant.block_of_live live
  obtain ⟨m', returned⟩ := invariant.free_returns live
  obtain ⟨_, invariant'⟩ := invariant.free_step live returned
  have wf := invariant.heap.holds.wellFormed
  have step : AdmissibleStep os s (.free a.pointer) ⟨m', dropped s.live a.pointer⟩ :=
    ⟨trivial, .free live returned⟩
  rw [← serves.pointer] at step invariant' ⊢
  rw [free_at wf] at invariant'
  have addr : (Block.fusion.absorb b.release post).1.addr = b.addr := absorb_addr b.release post
  have free : (Block.fusion.absorb b.release post).1.isFree = true := absorb_isFree b.release post
  have contents : (Block.fusion.absorb b.release post).1.contents = b.contents :=
    congrArg (· + contentsOffset) addr
  obtain ⟨m'', again, _⟩ := invariant'.free_again (by simp) free
  have stray : CarelessStep os ⟨m', dropped s.live b.contents⟩ _ ⟨m'', dropped s.live b.contents⟩ :=
    .again invariant'.heap.chain (by simp) free again
  rw [contents] at stray
  exact ⟨_, _, step, stray⟩

theorem Settles.stray {calls : List MmapEvent} {e : EagerState} (settles : Settles os calls s e)
    {action : CarelessAction} (stray : action.careful = none)
    (step : CarelessStep os s action s') : s'.live = s.live ∧ Settles os calls s' e := by
  obtain ⟨blocks, invariant, settled, same⟩ := settles
  cases step with
  | proper => cases stray
  | nothing returned =>
      rw [free_null] at returned
      obtain ⟨_, rfl⟩ := Prod.mk.inj (Option.some.inj returned)
      exact ⟨rfl, blocks, invariant, settled, same⟩
  | again chain member free returned =>
      obtain rfl := invariant.heap.unique chain
      obtain ⟨_, returned', calls, fuses, invariant', _⟩ := invariant.free_again member free
      obtain ⟨_, rfl⟩ := Prod.mk.inj (Option.some.inj (returned'.symm.trans returned))
      exact ⟨rfl, _, invariant', (Fusion.coalesce_of_fuses fuses).trans settled,
        calls.trans same⟩

abbrev AlikeThroughout (os : Platform) (s t : System) : Prop := Alike os os [] [] s t

theorem AlikeThroughout.run {t : System} {actions : List CarelessAction}
    (alike : AlikeThroughout os s t) (run : Run (CarelessStep os) s actions s') :
    ∃ t', Run (AdmissibleStep os) t (actions.filterMap CarelessAction.careful) t' ∧
      AlikeThroughout os s' t' := by
  refine run.erase ?_ ?_ alike
  · rintro s s' t action stray ⟨live, e, first, second⟩ step
    obtain ⟨same, settles⟩ := first.stray stray step
    exact ⟨same.trans live, e, settles, second⟩
  · rintro s s' t action kept careful alike step
    cases step with
    | proper taken =>
        obtain rfl := Option.some.inj careful
        exact alike.step rfl rfl taken
    | nothing => cases careful
    | again => cases careful

end

/-- Whatever frees of null and of blocks that are free already a run contains, it can be had
without them, with the same replies and the same calls of `mmap`; and wherever it has led, one
more returns and changes no byte of a live allocation. -/
theorem stray_frees_erased {os : Platform} {start s : System} {actions : List CarelessAction}
    (started : Started os start) (run : Run (CarelessStep os) start actions s) :
    (∃ t, Run (AdmissibleStep os) start (actions.filterMap CarelessAction.careful) t ∧
      t.live = s.live ∧ t.machine.calls = s.machine.calls ∧
      ∃ l m, Chain s.machine.memory heapStart l ∧ Chain t.machine.memory heapStart m ∧
        Block.fusion.coalesce l = Block.fusion.coalesce m) ∧
    ∀ pointer, Stray s.machine pointer →
      ∃ m', free os pointer s.machine = some ((), m') ∧ m'.calls = s.machine.calls ∧
        ∀ a ∈ s.live, ∀ x, a.span.start ≤ x → x < a.span.stop →
          m'.memory x = s.machine.memory x := by
  obtain ⟨_, returned⟩ := started
  have begun := init_settles returned
  have alike : AlikeThroughout os ⟨_, []⟩ ⟨_, []⟩ := ⟨rfl, _, begun, begun⟩
  obtain ⟨t, careful, live, e, ⟨l, invariant, settled, calls⟩, m, invariant', settled', calls'⟩ :=
    alike.run run
  refine ⟨⟨t, careful, live.symm, calls'.trans calls.symm, l, m, invariant.heap.chain,
    invariant'.heap.chain, settled.trans settled'.symm⟩, ?_⟩
  rintro pointer (rfl | ⟨blocks, chain, b, member, free, rfl⟩)
  · exact ⟨s.machine, free_null os s.machine, rfl, fun _ _ _ _ _ => rfl⟩
  · obtain rfl := invariant.heap.unique chain
    obtain ⟨m', returned', same, _, _, kept⟩ := invariant.free_again member free
    refine ⟨m', returned', same, fun a among x lower upper => ?_⟩
    exact kept x (invariant.kept_of_live among lower upper)

theorem Run.careless {os : Platform} {s s' : System} {actions : List Action}
    (run : Run (AdmissibleStep os) s actions s') :
    Run (CarelessStep os) s (actions.map .proper) s' := by
  induction run with
  | nil s => exact .nil s
  | cons first _ ih => exact .cons (.proper first) ih

/-- Some requests, and a double free; a free of null may follow. -/
theorem stray_frees_erased_of_double_free : ∃ m actions s t,
    Started granting ⟨m, []⟩ ∧ Run (CarelessStep granting) ⟨m, []⟩
      (actions.map .proper ++ [.proper (.free 67371142), .stray 67371142]) s ∧
    Run (AdmissibleStep granting) ⟨m, []⟩ (actions ++ [.free 67371142]) t ∧
    t.machine.calls = s.machine.calls ∧
    ∃ n, free granting null s.machine = some ((), n) ∧ n.calls = s.machine.calls := by
  obtain ⟨m, actions, s, _, started, run, _, live⟩ := sample_run
  have reachable : Reachable granting s := ⟨_, actions, started, run⟩
  obtain ⟨blocks, invariant⟩ := reachable.invariant
  have member : ⟨67371142, 9000⟩ ∈ s.live := by simp [live]
  obtain ⟨s', s'', first, second⟩ := invariant.double_free member
  have twice := (Run.careless run).append (.cons (.proper first) (.cons second (.nil s'')))
  obtain ⟨⟨t, careful, _, calls, _⟩, further⟩ := stray_frees_erased started twice
  obtain ⟨n, freed, same, _⟩ := further null (.inl rfl)
  have kept : (actions.map CarelessAction.proper ++
      [CarelessAction.proper (.free 67371142), .stray 67371142]).filterMap
        CarelessAction.careful =
        actions ++ [.free 67371142] := by
    rw [List.filterMap_append, List.filterMap_map]
    exact congrArg (· ++ _) (List.filterMap_some)
  rw [kept] at careful
  exact ⟨m, actions, s'', t, started, twice, careful, calls, n, freed, same⟩

section
variable {os : Platform} {s : System} {blocks : List Block}

end

end MemoryAllocator
