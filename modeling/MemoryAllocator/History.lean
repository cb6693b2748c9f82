import MemoryAllocator.Refinement
import MemoryAllocator.Foundation.Tilings

/-! What the allocator remembers of its past: the mapped regions and the taken blocks, and
nothing else that a later request could notice. -/
namespace MemoryAllocator
open Foundation

theorem gapped_of_separated {blocks : List Block} (separated : Block.fusion.Separated blocks) :
    Gapped Block.span (fun b => !b.isFree) blocks := by
  refine List.IsChain.imp ?_ separated
  intro a b apart aFree bFree touching
  rw [Bool.not_eq_false'] at aFree bFree
  have fusible : a.fusible b = true := Block.fusible_iff.mpr ⟨aFree, bFree, touching⟩
  exact absurd (apart.symm.trans fusible) (by decide)

/-- Settled lists of the same cells with the same taken blocks are the same. -/
theorem settled_unique {l m : List Block} (nodup : (extents l).Nodup)
    (same : extents l = extents m) (taken : takens l = takens m)
    (left : Block.fusion.Separated l) (right : Block.fusion.Separated m) : l = m := by
  refine Gapped.unique WellFormed.size_pos ?_ nodup same taken (gapped_of_separated left)
    (gapped_of_separated right)
  rintro ⟨addr, capacity, isFree⟩ ⟨addr', capacity', isFree'⟩ aFree bFree spans
  simp only [Block.span, Block.size, Span.mk.injEq, Bool.not_eq_false'] at spans aFree bFree
  obtain ⟨rfl, sizes⟩ := spans
  obtain rfl : capacity = capacity' := Nat.add_left_cancel sizes
  rw [aFree, bFree]

theorem Invariant.settle_alike {os os' : Platform} {s t : System} {l m : List Block}
    (invariant : Invariant os s l) (invariant' : Invariant os' t m)
    (mapped : regions s.machine.calls = regions t.machine.calls) (taken : takens l = takens m) :
    Block.fusion.coalesce l = Block.fusion.coalesce m := by
  have fuses := Fusion.fuses_coalesce (F := Block.fusion) l
  have fuses' := Fusion.fuses_coalesce (F := Block.fusion) m
  apply settled_unique
  · rw [extents_fuses fuses]
    exact invariant.heap.holds.wellFormed.room.nodup
  · rw [extents_fuses fuses, extents_fuses fuses', invariant.heap.tiled, invariant'.heap.tiled,
      mapped]
  · rw [takens_fuses fuses, takens_fuses fuses', taken]
  · exact Fusion.coalesce_separated l
  · exact Fusion.coalesce_separated m

/-- Two systems over one machine whose clients hold the same allocations, in whatever order
these were obtained. -/
structure Reordered (s t : System) : Prop where
  machine : s.machine = t.machine
  live : s.live.Perm t.live

theorem Reordered.symm {s t : System} (same : Reordered s t) : Reordered t s :=
  ⟨same.machine.symm, same.live.symm⟩

theorem Reordered.step {os : Platform} {s s' t : System} {action : Action}
    (same : Reordered s t) (step : AdmissibleStep os s action s') :
    ∃ t', AdmissibleStep os t action t' ∧ Reordered s' t' := by
  obtain ⟨n, others⟩ := t
  obtain ⟨rfl, perm⟩ := same
  obtain ⟨admissible, taken⟩ := step
  cases taken with
  | @malloc m m' live query pointer bound returned =>
      refine ⟨_, ⟨admissible, .malloc bound returned⟩, rfl, ?_⟩
      simp only [obtained]
      split
      · exact perm
      · exact perm.cons _
  | @free m m' live a member returned =>
      refine ⟨_, ⟨admissible, .free (perm.mem_iff.mp member) returned⟩, rfl, ?_⟩
      exact perm.filter _
  | @write m live a address byte member lower upper =>
      exact ⟨_, ⟨admissible, .write (perm.mem_iff.mp member) lower upper⟩, rfl, perm⟩

theorem Owned.reorder {taken : List Block} {live live' : List Allocation}
    (owned : Owned taken live) (perm : live.Perm live') : Owned taken live' := by
  constructor
  · intro a member
    exact owned.served a (perm.mem_iff.mpr member)
  · exact (perm.map Allocation.pointer).nodup_iff.mp owned.distinct
  · intro b member
    obtain ⟨a, old, same⟩ := owned.owned b member
    exact ⟨a, perm.mem_iff.mp old, same⟩

theorem Invariant.reorder {os : Platform} {s t : System} {blocks : List Block}
    (invariant : Invariant os s blocks) (same : Reordered s t) : Invariant os t blocks := by
  obtain ⟨n, others⟩ := t
  obtain ⟨rfl, perm⟩ := same
  exact ⟨invariant.heap, invariant.owned.reorder perm, invariant.placed⟩

/-- However two heaps came about: if they have the same regions and the same live allocations in
the same taken blocks, their lists differ only in how free neighbours are cut, and no later
request can tell one from the other. -/
theorem history_independent {os os' : Platform} {s t : System} {l m : List Block}
    (reachable : Reachable os s) (reachable' : Reachable os' t)
    (chain : Chain s.machine.memory heapStart l) (chain' : Chain t.machine.memory heapStart m)
    (page : os'.pageSize = os.pageSize)
    (mapped : regions s.machine.calls = regions t.machine.calls) (live : s.live.Perm t.live)
    (taken : takens l = takens m) :
    Block.fusion.coalesce l = Block.fusion.coalesce m ∧
      (os'.since t.machine.calls = os.since s.machine.calls →
        ∀ actions s', Run (AdmissibleStep os) s actions s' →
          (∃ t', Run (AdmissibleStep os') t actions t') ∧
          ∀ actions' t', Run (AdmissibleStep os') t actions' t' →
            actions.filterMap Action.request = actions'.filterMap Action.request →
            replies Action.request Action.reply actions =
                replies Action.request Action.reply actions' ∧
              ∃ later, s'.machine.calls = s.machine.calls ++ later ∧
                t'.machine.calls = t.machine.calls ++ later) := by
  obtain ⟨l', invariant⟩ := reachable.invariant
  obtain ⟨m', invariant'⟩ := reachable'.invariant
  obtain rfl := invariant.heap.unique chain
  obtain rfl := invariant'.heap.unique chain'
  have settled := invariant.settle_alike invariant' mapped taken
  refine ⟨settled, fun since actions s' run => ?_⟩
  -- the second heap in the hands of the first client
  have swapped : Reordered t ⟨t.machine, s.live⟩ := ⟨rfl, live.symm⟩
  have first : Settles os s.machine.calls s
      ⟨Block.fusion.coalesce l, [], Fusion.coalesce_separated l⟩ :=
    ⟨l, invariant, rfl, (List.append_nil _).symm⟩
  have second : Settles os' t.machine.calls ⟨t.machine, s.live⟩
      ⟨Block.fusion.coalesce l, [], Fusion.coalesce_separated l⟩ :=
    ⟨m, invariant'.reorder swapped, settled.symm, (List.append_nil _).symm⟩
  have alike : Alike os os' s.machine.calls t.machine.calls s ⟨t.machine, s.live⟩ :=
    ⟨rfl, _, first, second⟩
  obtain ⟨⟨t₁, repeated⟩, agree⟩ := alike.later page since run
  constructor
  · obtain ⟨t', run', _⟩ := repeated.mirror Reordered.step swapped.symm
    exact ⟨t', run'⟩
  · intro actions' t' run' requests
    obtain ⟨t₁, run₁, ended⟩ := run'.mirror Reordered.step swapped
    rw [ended.machine]
    exact agree actions' t₁ run₁ requests

/-- The second client has obtained its two allocations in the other order, over a heap that is
cut where the first is whole; the same two requests follow. -/
theorem history_independent_of_reordered : ∃ s t l m actions actions' s' t',
    session granting 8175 [.malloc 100, .malloc 200] = some s ∧
    session granting 8175 [.malloc 100, .malloc 200, .malloc 50, .malloc 60, .free 67371359,
      .free 67371426, .free 67371025, .malloc 100] = some t ∧
    s.live = [⟨67371142, 200⟩, ⟨67371025, 100⟩] ∧ t.live = [⟨67371025, 100⟩, ⟨67371142, 200⟩] ∧
    Chain s.machine.memory heapStart l ∧ Chain t.machine.memory heapStart m ∧
    l.length = 3 ∧ m.length = 4 ∧ Block.fusion.coalesce l = Block.fusion.coalesce m ∧
    Run (AdmissibleStep granting) s actions s' ∧ Run (AdmissibleStep granting) t actions' t' ∧
    actions.filterMap Action.request = [.malloc 300, .free 67371142] ∧
    replies Action.request Action.reply actions = replies Action.request Action.reply actions' := by
  have one : ((session granting 8175 [.malloc 100, .malloc 200]).bind fun s =>
      (performAll granting s [.malloc 300, .free 67371142]).map fun _ =>
        (s.live, s.machine.calls, [67371008, 67371125, 67371342].map (header s.machine.memory))) =
      some ([⟨67371142, 200⟩, ⟨67371025, 100⟩],
        [⟨mapPagesCall heapStart 8192 mapFixedNoreplace, heapStart⟩],
        [⟨67371125, ⟨100⟩, false⟩, ⟨67371342, ⟨200⟩, false⟩, ⟨null, ⟨7841⟩, true⟩]) := by
    decide +kernel
  have two : ((session granting 8175 [.malloc 100, .malloc 200, .malloc 50, .malloc 60,
      .free 67371359, .free 67371426, .free 67371025, .malloc 100]).bind fun t =>
      (performAll granting t [.malloc 300, .free 67371142]).map fun _ =>
        (t.live, t.machine.calls,
          [67371008, 67371125, 67371342, 67371409].map (header t.machine.memory))) =
      some ([⟨67371025, 100⟩, ⟨67371142, 200⟩],
        [⟨mapPagesCall heapStart 8192 mapFixedNoreplace, heapStart⟩],
        [⟨67371125, ⟨100⟩, false⟩, ⟨67371342, ⟨200⟩, false⟩, ⟨67371409, ⟨50⟩, true⟩,
          ⟨null, ⟨7774⟩, true⟩]) := by
    decide +kernel
  obtain ⟨s, first, rest⟩ := Option.bind_eq_some_iff.mp one
  obtain ⟨t, second, rest'⟩ := Option.bind_eq_some_iff.mp two
  obtain ⟨s', performed, same⟩ := Option.map_eq_some_iff.mp rest
  obtain ⟨t', performed', same'⟩ := Option.map_eq_some_iff.mp rest'
  simp only [List.map_cons, List.map_nil, Prod.mk.injEq, List.cons.injEq, and_true] at same same'
  obtain ⟨live, calls, front, middle, back⟩ := same
  obtain ⟨live', calls', front', middle', back', end'⟩ := same'
  have chain : Chain s.machine.memory heapStart
      [⟨heapStart, 100, false⟩, ⟨67371125, 200, false⟩, ⟨67371342, 7841, true⟩] :=
    ⟨rfl, ⟨front, middle, back, trivial⟩, by decide⟩
  have chain' : Chain t.machine.memory heapStart [⟨heapStart, 100, false⟩,
      ⟨67371125, 200, false⟩, ⟨67371342, 50, true⟩, ⟨67371409, 7774, true⟩] :=
    ⟨rfl, ⟨front', middle', back', end', trivial⟩, by decide⟩
  have reachable := session_reachable (by decide) (by decide) first
  have reachable' := session_reachable (by decide) (by decide) second
  obtain ⟨actions, run, requests⟩ := performAll_run (by decide) performed
  obtain ⟨actions', run', requests'⟩ := performAll_run (by decide) performed'
  have swapped : s.live.Perm t.live := live ▸ live' ▸ List.Perm.swap _ _ _
  have since : granting.since t.machine.calls = granting.since s.machine.calls := by
    rw [calls, calls']
  obtain ⟨settled, later⟩ := history_independent reachable reachable' chain chain' rfl
    (congrArg regions (calls.trans calls'.symm)) swapped rfl
  obtain ⟨_, agree⟩ := later since actions s' run
  obtain ⟨same, _⟩ := agree actions' t' run' (requests.trans requests'.symm)
  exact ⟨s, t, _, _, actions, actions', s', t', first, second, live, live', chain, chain', rfl, rfl,
    settled, run, run', requests, same⟩

end MemoryAllocator
