import Mathlib.Algebra.Order.BigOperators.Group.List
import Mathlib.Algebra.Order.Ring.Nat
import MemoryAllocator.Layout

/-! How large the heap gets. A request that makes it grow has found every free block too small;
these are few, so what was mapped then was mostly in use. Over a run the heap stays within a
bound on what the client holds at once, however long the run is. -/
namespace MemoryAllocator
open Foundation

/-- What the taken blocks of a list take up, headers and slack included. -/
def occupied (blocks : List Block) : Nat := ((takens blocks).map Block.size).sum

/-- The most that the block of an allocation takes up: 17 bytes of header, at least 24 bytes of
contents, and at most 40 bytes that were not worth splitting off. -/
def Allocation.room (a : Allocation) : Nat := max a.request blockMinCapacity + contentsOffset + 40

def inUse (live : List Allocation) : Nat := (live.map Allocation.room).sum

/-- What the heap can have come to when a request of at most so many bytes finds no block. -/
def crowded (largest count bytes displaced : Nat) : Nat :=
  bytes + (count + displaced + 1) * (max largest blockMinCapacity + 16)

theorem crowded_mono {largest largest' count count' bytes bytes' displaced displaced' : Nat}
    (larger : largest ≤ largest') (more : count ≤ count') (fuller : bytes ≤ bytes')
    (wider : displaced ≤ displaced') :
    crowded largest count bytes displaced ≤ crowded largest' count' bytes' displaced' := by
  have bound : max largest blockMinCapacity + 16 ≤ max largest' blockMinCapacity + 16 := by omega
  exact Nat.add_le_add fuller (Nat.mul_le_mul (by omega) bound)

section
variable {taken : List Block} {live : List Allocation}

theorem Owned.paired (owned : Owned taken live) (distinct : (taken.map Block.addr).Nodup) :
    ∃ serving : Allocation → Block, taken.Perm (live.map serving) ∧
      ∀ a ∈ live, (serving a).Serves a := by
  have each : ∀ a, ∃ b, a ∈ live → b ∈ taken ∧ b.Serves a := by
    intro a
    by_cases among : a ∈ live
    · obtain ⟨b, member, serves⟩ := owned.served a among
      exact ⟨b, fun _ => ⟨member, serves⟩⟩
    · exact ⟨⟨null, 0, true⟩, fun member => absurd member among⟩
  choose serving serves using each
  have pointers : (live.map serving).map Block.contents = live.map Allocation.pointer := by
    rw [List.map_map]
    exact List.map_congr_left fun a among => (serves a among).2.pointer
  have apart : (live.map serving).Nodup := .of_map Block.contents (pointers ▸ owned.distinct)
  refine ⟨serving, ?_, fun a among => (serves a among).2⟩
  refine (List.perm_ext_iff_of_nodup (.of_map Block.addr distinct) apart).mpr fun b => ?_
  constructor
  · intro member
    obtain ⟨a, among, pointer⟩ := owned.owned b member
    obtain ⟨inside, served⟩ := serves a among
    have addr : (serving a).addr = b.addr :=
      Nat.add_right_cancel (served.pointer.trans pointer)
    exact List.mem_map.mpr ⟨a, among, List.inj_on_of_nodup_map distinct inside member addr⟩
  · intro member
    obtain ⟨a, among, rfl⟩ := List.mem_map.mp member
    exact (serves a among).1

theorem Owned.length_eq (owned : Owned taken live) (distinct : (taken.map Block.addr).Nodup) :
    taken.length = live.length := by
  obtain ⟨serving, perm, _⟩ := owned.paired distinct
  rw [perm.length_eq, List.length_map]

theorem Owned.size_le (owned : Owned taken live) (distinct : (taken.map Block.addr).Nodup) :
    (taken.map Block.size).sum ≤ inUse live := by
  obtain ⟨serving, perm, serves⟩ := owned.paired distinct
  rw [(perm.map Block.size).sum_eq, List.map_map]
  refine List.sum_le_sum fun a among => ?_
  have tight := (serves a among).tight
  simp only [Function.comp, Block.size, Allocation.room]
  omega

end

theorem size_sum_le {blocks : List Block} {n : Nat}
    (small : ∀ b ∈ blocks, b.isFree = true → b.size ≤ n) :
    (blocks.map Block.size).sum ≤ occupied blocks + blocks.countP Block.isFree * n := by
  unfold occupied
  induction blocks with
  | nil => exact Nat.zero_le _
  | cons b rest ih =>
      have later := ih fun c member => small c (List.mem_cons_of_mem b member)
      rw [List.map_cons, List.sum_cons]
      cases free : b.isFree with
      | true =>
          have size := small b List.mem_cons_self free
          rw [takens_cons_free free, List.countP_cons_of_pos free, Nat.add_mul, Nat.one_mul]
          omega
      | false =>
          rw [takens_cons_taken free, List.countP_cons_of_neg (by simp [free]), List.map_cons,
            List.sum_cons]
          omega

section
variable {os : Platform} {s : System} {blocks : List Block} {query : Nat}

theorem Invariant.mapped_eq (invariant : Invariant os s blocks) :
    mappedBytes s.machine.calls = ((Block.fusion.coalesce blocks).map Block.size).sum := by
  have tiled := congrArg List.length ((extents_fuses (Fusion.fuses_coalesce blocks)).trans
    invariant.heap.tiled)
  rw [extents, footprint_length, footprint_length, List.map_map] at tiled
  exact tiled.symm

theorem Invariant.takens_length (invariant : Invariant os s blocks) :
    (takens blocks).length = s.live.length :=
  invariant.owned.length_eq (takens_addr_nodup invariant.heap.holds.wellFormed)

theorem Invariant.occupied_le (invariant : Invariant os s blocks) :
    occupied blocks ≤ inUse s.live :=
  invariant.owned.size_le (takens_addr_nodup invariant.heap.holds.wellFormed)

/-- Between free blocks of the settled list there is a taken one or a gap. -/
theorem Invariant.free_count (invariant : Invariant os s blocks) :
    (Block.fusion.coalesce blocks).countP Block.isFree ≤
      s.live.length + gaps (regions s.machine.calls) + 1 := by
  have fuses := Fusion.fuses_coalesce (F := Block.fusion) blocks
  have counted := (gapped_of_separated (Fusion.coalesce_separated blocks)).count_le
  rw [gaps_spans, extents_fuses fuses, ← gaps_spans, invariant.gaps_eq,
    List.countP_eq_length_filter (p := fun b : Block => !b.isFree)] at counted
  have taken := takens_fuses fuses
  rw [takens] at taken
  rw [taken, invariant.takens_length] at counted
  simpa only [Bool.not_not] using counted

/-- Where no free block fits, most of the heap is in use. -/
theorem Invariant.crowded_of_exhausted (invariant : Invariant os s blocks)
    (counted : gaps (regions s.machine.calls) = displacements s.machine.calls)
    {before : List Block} {last : Block}
    (searched : Searched (max query blockMinCapacity) blocks (.exhausted before last)) :
    mappedBytes s.machine.calls ≤
      crowded query s.live.length (occupied blocks) (displacements s.machine.calls) := by
  have settled : Block.fusion.coalesce blocks = before ++ [last] := searched.fused
  have small : ∀ b ∈ Block.fusion.coalesce blocks, b.isFree = true →
      b.size ≤ max query blockMinCapacity + 16 := by
    intro b member free
    have bad := searched.decides b (settled ▸ member)
    by_contra! large
    have fits : b.fits (max query blockMinCapacity) = true := by
      refine Block.fits_iff.mpr ⟨free, ?_⟩
      simp only [Block.size, contentsOffset] at large
      omega
    exact absurd (fits.symm.trans bad) (by decide)
  have parts := size_sum_le small
  have free := invariant.free_count
  rw [occupied, takens_fuses (Fusion.fuses_coalesce blocks)] at parts
  rw [invariant.mapped_eq, crowded, ← counted]
  exact parts.trans (Nat.add_le_add_left (Nat.mul_le_mul_right _ free) _)

end

/-- A heap larger than the live allocations can crowd serves the request without growing. -/
theorem spare_serves {os : Platform} {s : System} (reachable : Reachable os s) {query : Nat}
    (spare : crowded query s.live.length (inUse s.live) (displacements s.machine.calls) <
      mappedBytes s.machine.calls) :
    ∃ pointer m', malloc os query s.machine = some (pointer, m') ∧ pointer ≠ null ∧
      m'.calls = s.machine.calls := by
  obtain ⟨blocks, invariant, counted⟩ := reachable.displaced
  obtain ⟨pointer, m', returned⟩ := invariant.malloc_returns query
  obtain ⟨outcome, pointed, calls, _, _⟩ := invariant.heap.replied returned
  have roomy : ∀ {before last},
      ¬ Searched (max query blockMinCapacity) blocks (.exhausted before last) := by
    intro before last searched
    have filled := (invariant.crowded_of_exhausted counted searched).trans
      (crowded_mono (le_refl _) (le_refl _) invariant.occupied_le (le_refl _))
    exact absurd filled (Nat.not_le.mpr spare)
  refine ⟨pointer, m', returned, ?_⟩
  rw [pointed, calls]
  generalize ListAllocator.malloc os.pageSize (os.since s.machine.calls) query blocks = r at outcome
  cases outcome with
  | @found before after good searched => exact ⟨good.contents_ne_null, List.append_nil _⟩
  | refused searched _ => exact absurd searched roomy
  | grown searched _ _ _ => exact absurd searched roomy

theorem spare_serves_of_three : ∃ s pointer m', session granting 8175 sampleRequests = some s ∧
    malloc granting 5000 s.machine = some (pointer, m') ∧ pointer ≠ null ∧
    m'.calls = s.machine.calls := by
  obtain ⟨s, performed, live, calls⟩ := sample_calls
  have reachable := session_reachable (by decide) (by decide) performed
  have spare : crowded 5000 s.live.length (inUse s.live) (displacements s.machine.calls) <
      mappedBytes s.machine.calls := by
    rw [live, calls]
    decide
  obtain ⟨pointer, m', served⟩ := spare_serves reachable spare
  exact ⟨s, pointer, m', performed, served⟩

/-- A step of a client that asks for at most `largest` bytes at once, and holds at most `count`
allocations at a time, whose blocks take up at most `bytes`. -/
structure ModestStep (os : Platform) (largest count bytes : Nat) (s : System) (action : Action)
    (s' : System) : Prop where
  step : AdmissibleStep os s action s'
  asked : ∀ query pointer, action = .malloc query pointer → query ≤ largest
  held : s'.live.length ≤ count
  used : ∀ blocks, Chain s'.machine.memory heapStart blocks → occupied blocks ≤ bytes

/-- What a heap can come to that served such a client. -/
def heapBound (os : Platform) (largest count bytes displaced : Nat) : Nat :=
  crowded largest count bytes displaced +
    max (roundUp os.pageSize (max largest blockMinCapacity + contentsOffset)) regionMinSize

structure Modest (os : Platform) (initial largest count bytes : Nat) (s : System) : Prop where
  counted : gaps (regions s.machine.calls) = displacements s.machine.calls
  held : s.live.length ≤ count
  used : ∀ blocks, Chain s.machine.memory heapStart blocks → occupied blocks ≤ bytes
  bounded : mappedBytes s.machine.calls ≤
    max initial (heapBound os largest count bytes (displacements s.machine.calls))

section
variable {os : Platform} {s s' : System} {blocks : List Block} {initial largest count bytes : Nat}

theorem regionSize_le {query : Nat} (admissible : Admissible os.pageSize query)
    (asked : query ≤ largest) : regionSize os.pageSize (max query blockMinCapacity) ≤
      max (roundUp os.pageSize (max largest blockMinCapacity + contentsOffset)) regionMinSize := by
  rw [regionSize_eq os.pageSize_pos admissible]
  have rounded : roundUp os.pageSize (max query blockMinCapacity + contentsOffset) ≤
      roundUp os.pageSize (max largest blockMinCapacity + contentsOffset) :=
    roundUp_mono os.pageSize (by omega)
  exact max_le_max rounded (le_refl _)

theorem heapBound_mono {displaced displaced' : Nat} (wider : displaced ≤ displaced') :
    heapBound os largest count bytes displaced ≤ heapBound os largest count bytes displaced' :=
  Nat.add_le_add_right (crowded_mono (le_refl _) (le_refl _) (le_refl _) wider) _

theorem Modest.reply (modest : Modest os initial largest count bytes s)
    (invariant : Invariant os s blocks) {query : Nat} {r : Reply}
    (admissible : Admissible os.pageSize query) (asked : query ≤ largest)
    (outcome : Outcome os.pageSize (os.since s.machine.calls) (max query blockMinCapacity) blocks
      r) : mappedBytes (s.machine.calls ++ r.events) ≤ max initial
        (heapBound os largest count bytes (displacements (s.machine.calls ++ r.events))) := by
  have wider : displacements s.machine.calls ≤ displacements (s.machine.calls ++ r.events) := by
    rw [displacements_append]
    exact Nat.le_add_right _ _
  have kept := modest.bounded.trans (max_le_max (le_refl initial) (heapBound_mono wider))
  cases outcome with
  | found => simpa using kept
  | refused _ refused =>
      have none : mappedBytes _ = 0 := congrArg (fun l => (l.map Span.length).sum)
        (requestRegion_none refused rfl)
      rw [mappedBytes_append, none]
      exact kept
  | grown searched answered mapped _ =>
      have one := congrArg (fun l => (l.map Span.length).sum) (requestRegion_one answered mapped)
      have filled := invariant.crowded_of_exhausted modest.counted searched
      have used := modest.used blocks invariant.heap.chain
      have full := filled.trans (crowded_mono asked modest.held used wider)
      have more := regionSize_le admissible asked
      refine le_max_of_le_right ?_
      rw [mappedBytes_append, heapBound]
      refine Nat.add_le_add full (le_trans (le_of_eq one) ?_)
      simpa using more

theorem Modest.step (modest : Modest os initial largest count bytes s)
    (invariant : Invariant os s blocks) {action : Action}
    (step : ModestStep os largest count bytes s action s') :
    Modest os initial largest count bytes s' := by
  obtain ⟨taken, asked, held, used⟩ := step
  have counted := invariant.displaced_step taken modest.counted
  refine ⟨counted, held, used, ?_⟩
  obtain ⟨admissible, taken⟩ := taken
  cases taken with
  | malloc _ returned =>
      obtain ⟨outcome, _, grown, _, _⟩ := invariant.heap.replied returned
      simp only [grown]
      exact modest.reply invariant admissible (asked _ _ rfl) outcome
  | free live returned =>
      rw [(invariant.free_step live returned).1]
      exact modest.bounded
  | write => exact modest.bounded

theorem inUse_obtained (live : List Allocation) {query : Nat} (asked : query ≤ largest)
    (pointer : Nat) : inUse (obtained live query pointer) ≤
      inUse live + (max largest blockMinCapacity + contentsOffset + 40) := by
  unfold obtained
  split
  · exact Nat.le_add_right _ _
  · simp only [inUse, List.map_cons, List.sum_cons, Allocation.room]
    omega

theorem inUse_dropped (live : List Allocation) (pointer : Nat) :
    inUse (dropped live pointer) ≤ inUse live :=
  (List.filter_sublist.map Allocation.room).sum_le_sum fun _ _ => Nat.zero_le _

theorem Invariant.used (invariant : Invariant os s blocks) (used : inUse s.live ≤ bytes) :
    ∀ l, Chain s.machine.memory heapStart l → occupied l ≤ bytes := by
  intro l chain
  obtain rfl := invariant.heap.unique chain
  exact invariant.occupied_le.trans used

/-- Any client is modest while it makes only so many requests. -/
theorem Run.modest {actions : List Action} (run : Run (AdmissibleStep os) s actions s')
    (invariant : Invariant os s blocks)
    (asked : ∀ query, .malloc query ∈ actions.filterMap Action.request → query ≤ largest)
    (held : s.live.length + (actions.filterMap Action.request).length ≤ count)
    (used : inUse s.live + (actions.filterMap Action.request).length *
      (max largest blockMinCapacity + contentsOffset + 40) ≤ bytes) :
    Run (ModestStep os largest count bytes) s actions s' := by
  induction run generalizing blocks with
  | nil s => exact .nil s
  | @cons s s₁ s' action actions first later ih =>
      obtain ⟨blocks', invariant'⟩ := invariant.step first.safe
      obtain ⟨admissible, taken⟩ := id first
      cases taken with
      | @malloc m m' live query pointer bound returned =>
          have small := asked query (by simp [Action.request])
          have more := inUse_obtained live small pointer
          have longer : (obtained live query pointer).length ≤ live.length + 1 := by
            unfold obtained
            split <;> simp
          simp only [List.filterMap_cons, Action.request, List.length_cons, Nat.add_mul,
            Nat.one_mul] at held used asked
          refine .cons ⟨first, ?_, by simp only; omega, invariant'.used (by simp only; omega)⟩
            (ih invariant' (fun q member => asked q (List.mem_cons_of_mem _ member))
              (by simp only; omega) (by simp only; omega))
          rintro query' pointer' same
          obtain ⟨rfl, rfl⟩ := Action.malloc.inj same
          exact small
      | @free m m' live a member returned =>
          have less := inUse_dropped live a.pointer
          have shorter : (dropped live a.pointer).length ≤ live.length :=
            List.length_filter_le _ live
          simp only [List.filterMap_cons, Action.request, List.length_cons, Nat.add_mul,
            Nat.one_mul] at held used asked
          refine .cons ⟨first, by simp, by simp only; omega,
              invariant'.used (by simp only; omega)⟩
            (ih invariant' (fun q member => asked q (List.mem_cons_of_mem _ member))
              (by simp only; omega) (by simp only; omega))
      | write =>
          simp only [List.filterMap_cons, Action.request] at held used asked
          exact .cons ⟨first, by simp, by simp only; omega,
            invariant'.used (by simp only; omega)⟩ (ih invariant' asked held used)

end

/-- However long a run is, the heap stays within a bound on what its client's blocks take up at
once, on its largest request, and on how often `mmap` denied a hint; or it never outgrew its
first region. -/
theorem footprint_bounded {os : Platform} {start s : System} {actions : List Action}
    {largest count bytes : Nat} (started : Started os start)
    (run : Run (ModestStep os largest count bytes) start actions s) :
    mappedBytes s.machine.calls ≤ max (mappedBytes start.machine.calls)
      (heapBound os largest count bytes (displacements s.machine.calls)) := by
  have counted := started.no_displacement
  obtain ⟨_, returned⟩ := started
  have invariant := (init_invariant returned).2
  have first : Modest os (mappedBytes _) largest count bytes ⟨_, []⟩ :=
    ⟨counted, Nat.zero_le _, invariant.used (Nat.zero_le _), le_max_left _ _⟩
  obtain ⟨_, _, modest⟩ := run.invariant
    (I := fun s => ∃ blocks, Invariant os s blocks ∧
      Modest os (mappedBytes _) largest count bytes s)
    (by
      rintro s action s' ⟨blocks, invariant, modest⟩ step
      obtain ⟨blocks', invariant'⟩ := invariant.step step.step.safe
      exact ⟨blocks', invariant', modest.step invariant step⟩)
    ⟨_, invariant, first⟩
  exact modest.bounded

theorem footprint_bounded_of_three : ∃ m actions s, Started granting ⟨m, []⟩ ∧
    Run (ModestStep granting 9000 3 27171) ⟨m, []⟩ actions s ∧
    actions.filterMap Action.request = sampleRequests ∧
    mappedBytes s.machine.calls ≤ max (mappedBytes m.calls)
      (heapBound granting 9000 3 27171 (displacements s.machine.calls)) := by
  obtain ⟨m, actions, s, returned, started, run, requests, _⟩ := sample_run
  have modest : Run (ModestStep granting 9000 3 27171) ⟨m, []⟩ actions s := by
    have asked : ∀ query, .malloc query ∈ sampleRequests → query ≤ 9000 := by
      simp [sampleRequests]
    have held : 0 + sampleRequests.length ≤ 3 := by decide
    have used : 0 + sampleRequests.length * (9000 + 17 + 40) ≤ 27171 := by decide
    rw [← requests] at asked held used
    exact Run.modest run (init_invariant returned).2 asked held used
  exact ⟨m, actions, s, started, modest, requests, footprint_bounded started modest⟩

end MemoryAllocator
