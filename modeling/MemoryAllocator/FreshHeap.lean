import Mathlib.Algebra.BigOperators.Group.List.Basic
import MemoryAllocator.Arena

/-! Heaps of which nothing has been freed. One piece follows another from the start of the
range, and what is free is the end of it. -/
namespace MemoryAllocator
open Foundation

def pointersOf (actions : List Action) : List Nat :=
  actions.filterMap fun action =>
    match action with
    | .malloc _ pointer => if pointer = null then none else some pointer
    | _ => none

theorem starts_arenaEvents (actions : List Action) :
    ArenaEvent.starts (actions.filterMap Action.arenaEvent) =
      (pointersOf actions).map (· - contentsOffset) := by
  induction actions with
  | nil => rfl
  | cons action rest ih =>
      unfold ArenaEvent.starts pointersOf at ih ⊢
      cases action with
      | malloc query pointer =>
          by_cases refused : pointer = null
          · simp [Action.arenaEvent, refused, ih]
          · simp [Action.arenaEvent, refused, ih]
      | free pointer => simp [Action.arenaEvent, ih]
      | write address byte => exact ih

theorem no_arena_give {actions : List Action} (kept : ∀ pointer, .free pointer ∉ actions)
    (start : Nat) : .give start ∉ actions.filterMap Action.arenaEvent := by
  intro member
  obtain ⟨action, among, seen⟩ := List.mem_filterMap.mp member
  cases action with
  | malloc query pointer =>
      have event := Option.some.inj seen
      split at event <;> cases event
  | free pointer => exact kept pointer among
  | write => cases seen

theorem empty_packed {stop : Nat} (nonempty : heapStart ≤ stop) :
    Arena.Packed ⟨heapStart, stop, ∅⟩ heapStart := by
  constructor
  · exact le_refl _
  · exact nonempty
  · intro y
    simp [Arena.free]

theorem Invariant.free_of_packed {os : Platform} {s : System} {blocks : List Block} {x : Nat}
    (invariant : Invariant os s blocks) (none : gaps (regions s.machine.calls) = 0)
    (packed : (arenaOf (heapEnd s.machine.calls) blocks).Packed x) (y : Nat) :
    y ∈ freeCells blocks ↔ x ≤ y ∧ y < heapEnd s.machine.calls := by
  have gapless := invariant.gaps_eq.trans none
  have ends := invariant.stretch_end gapless
  have free := packed.free y
  rw [ends, mem_arena_free invariant.heap.holds.wellFormed (invariant.one_stretch gapless)] at free
  rw [ends]
  exact free

/-- As long as nothing is freed and `mmap` grants its hints, pointers ascend and the free
bytes are those from one address on: no hole is left between allocations. -/
theorem ascending_without_free {os : Platform} {start s : System} {actions : List Action}
    (started : Started os start) (run : Run (AdmissibleStep os) start actions s)
    (granted : displacements s.machine.calls = 0) (kept : ∀ pointer, .free pointer ∉ actions) :
    ∃ blocks x, Chain s.machine.memory heapStart blocks ∧
      (∀ y, y ∈ freeCells blocks ↔ x ≤ y ∧ y < heapEnd s.machine.calls) ∧
      (pointersOf actions).Pairwise (· < ·) := by
  obtain ⟨blocks, invariant, none, arenas⟩ := Run.arena started run granted
  have reachable : Reachable os start := ⟨start, [], started, .nil start⟩
  obtain ⟨_, first, counted⟩ := reachable.displaced
  have unmoved := (Run.granted run reachable.displaced granted).2
  have gapless := first.gaps_eq.trans (counted.trans unmoved)
  have nonempty : heapStart ≤ heapEnd start.machine.calls := by
    rw [first.stretch_end gapless]
    exact Nat.le_add_right _ _
  obtain ⟨x, packed, _, _, ascending⟩ := (empty_packed nonempty).run
    (empty_sound (heapEnd start.machine.calls)) (no_arena_give kept) arenas
  refine ⟨blocks, x, invariant.heap.chain, invariant.free_of_packed none packed, ?_⟩
  rw [starts_arenaEvents, List.pairwise_map] at ascending
  exact ascending.imp fun lower => by omega

/-- Before the third request nothing was freed. -/
theorem ascending_without_free_of_two : ∃ (s : System) (actions : List Action)
    (blocks : List Block) (x : Nat),
    actions.filterMap Action.request = [.malloc 100, .malloc 9000] ∧
    Chain s.machine.memory heapStart blocks ∧
    (∀ y, y ∈ freeCells blocks ↔ x ≤ y ∧ y < heapEnd s.machine.calls) ∧
    (pointersOf actions).Pairwise (· < ·) := by
  obtain ⟨s, performed, granted, _⟩ := sample_granted
  have parts : sampleRequests = [.malloc 100, .malloc 9000] ++ [.free 67371025] := rfl
  rw [parts] at performed
  obtain ⟨s₁, two, third⟩ := session_append performed
  obtain ⟨m, actions, returned, run, requests⟩ := sessionIn_run (by decide) two
  obtain ⟨_, last, _⟩ := performAll_run (by decide) third
  have started : Started granting ⟨m, []⟩ := .init (by decide) returned
  have reachable : Reachable granting s₁ := ⟨_, actions, started, run⟩
  have kept : ∀ pointer, .free pointer ∉ actions := by
    intro pointer member
    have asked : .free pointer ∈ actions.filterMap Action.request :=
      List.mem_filterMap.mpr ⟨_, member, rfl⟩
    simp [requests] at asked
  obtain ⟨blocks, x, chain, free, ascending⟩ := ascending_without_free started run
    (Run.granted last reachable.displaced granted).2 kept
  exact ⟨s₁, actions, blocks, x, requests, chain, free, ascending⟩

/-- What the requests take of the range, headers included. -/
def totalSize (queries : List Nat) : Nat := (queries.map pieceSize).sum

/-- The allocations that serve some requests when one piece follows another. -/
def backToBack (x : Nat) : List Nat → List Allocation
  | [] => []
  | query :: rest => ⟨x + contentsOffset, query⟩ :: backToBack (x + pieceSize query) rest

/-- Where the free addresses begin once so much is taken from `x` on: what is too short for a
block has been taken too. -/
def freeFrom (x taken stop : Nat) : Nat :=
  if x + (taken + leastRest) ≤ stop then x + taken else stop

theorem totalSize_cons (query : Nat) (rest : List Nat) :
    totalSize (query :: rest) = pieceSize query + totalSize rest := by
  rw [totalSize, List.map_cons, List.sum_cons]
  rfl

theorem freeFrom_add (x taken more stop : Nat) :
    freeFrom (x + taken) more stop = freeFrom x (taken + more) stop := by
  simp only [freeFrom, Nat.add_assoc]

theorem leastRest_le_pieceSize (query : Nat) : leastRest ≤ pieceSize query :=
  Nat.add_le_add_left (le_max_right _ _) _

section
variable {os : Platform} {s : System} {blocks : List Block} {query x : Nat}

theorem Invariant.admissible_of_room (invariant : Invariant os s blocks)
    (room : heapStart + pieceSize query ≤ heapEnd s.machine.calls) :
    Admissible os.pageSize query := by
  have nonempty := invariant.heap.nonempty
  have member := List.getLast_mem nonempty
  have ends := invariant.heapEnd_eq (List.getLast?_eq_some_getLast nonempty)
  have below := invariant.heap.holds.wellFormed.stop_lt member
  obtain ⟨b, rest, rfl, start, _⟩ := invariant.heap.head
  have behind := invariant.heap.behind invariant.placed (b := b) (by simp)
  have rounded := roundUp_lt os.pageSize_pos (max query blockMinCapacity + contentsOffset)
  simp only [pieceSize] at room
  simp only [Admissible]
  omega

theorem Invariant.silent_of_fits (invariant : Invariant os s blocks) {r : Reply}
    (none : gaps (regions s.machine.calls) = 0)
    (fits : (arenaOf (heapEnd s.machine.calls) blocks).Fits (pieceSize query) x)
    (outcome : Outcome os.pageSize (os.since s.machine.calls) (max query blockMinCapacity) blocks
      r) : r.events = [] := by
  cases outcome with
  | found => rfl
  | refused searched => exact absurd fits (invariant.arena_nowhere none searched x)
  | grown searched => exact absurd fits (invariant.arena_nowhere none searched x)

theorem Invariant.serve_packed (invariant : Invariant os s blocks)
    (none : gaps (regions s.machine.calls) = 0)
    (packed : (arenaOf (heapEnd s.machine.calls) blocks).Packed x)
    (room : x + pieceSize query ≤ heapEnd s.machine.calls) :
    ∃ m' blocks', malloc os query s.machine = some (x + contentsOffset, m') ∧
      m'.calls = s.machine.calls ∧
      Invariant os ⟨m', ⟨x + contentsOffset, query⟩ :: s.live⟩ blocks' ∧
      (arenaOf (heapEnd s.machine.calls) blocks').Packed
        (freeFrom x (pieceSize query) (heapEnd s.machine.calls)) := by
  have fits : (arenaOf (heapEnd s.machine.calls) blocks).Fits (pieceSize query) x :=
    fun y lower upper => (packed.free y).mpr ⟨lower, upper.trans_le room⟩
  have lower : heapStart ≤ x := packed.lower
  have admissible : Admissible os.pageSize query := invariant.admissible_of_room (by omega)
  obtain ⟨pointer, m', returned⟩ := invariant.malloc_returns query
  obtain ⟨outcome, pointed, calls, _, _⟩ := invariant.heap.replied returned
  obtain ⟨_, _, _, invariant'⟩ := invariant.malloc_step (.inl admissible) rfl returned
  obtain ⟨before, good, after, searched, replied⟩ :=
    outcome.found_of_no_events (invariant.silent_of_fits none fits outcome)
  rw [replied] at pointed calls invariant'
  obtain ⟨piece, takes, start, same⟩ := (invariant.arena_found none searched).taken fits
  obtain ⟨first, packed'⟩ := packed.take takes
  have place : pointer = x + contentsOffset := by
    rw [pointed, ← first, start]
    rfl
  have live : obtained s.live query pointer = ⟨x + contentsOffset, query⟩ :: s.live := by
    rw [obtained, if_neg (pointed ▸ good.contents_ne_null), place]
  rw [live] at invariant'
  rw [place] at returned
  rw [packed.stop_eq takes, ← same] at packed'
  exact ⟨m', _, returned, calls.trans (List.append_nil _), invariant', packed'⟩

theorem Invariant.serve_all {queries : List Nat} (invariant : Invariant os s blocks)
    (none : gaps (regions s.machine.calls) = 0)
    (packed : (arenaOf (heapEnd s.machine.calls) blocks).Packed x)
    (rest : freeFrom x 0 (heapEnd s.machine.calls) = x)
    (room : x + totalSize queries ≤ heapEnd s.machine.calls) :
    ∃ s' blocks', performAll os s (queries.map .malloc) = some s' ∧
      s'.machine.calls = s.machine.calls ∧ s'.live = (backToBack x queries).reverse ++ s.live ∧
      Invariant os s' blocks' ∧ (arenaOf (heapEnd s.machine.calls) blocks').Packed
        (freeFrom x (totalSize queries) (heapEnd s.machine.calls)) := by
  induction queries generalizing s blocks x with
  | nil =>
      refine ⟨s, blocks, rfl, rfl, rfl, invariant, ?_⟩
      rw [totalSize, List.map_nil, List.sum_nil, rest]
      exact packed
  | cons query later ih =>
      rw [totalSize_cons] at room ⊢
      have now : x + pieceSize query ≤ heapEnd s.machine.calls := by omega
      obtain ⟨m', blocks', returned, calls, invariant', packed'⟩ :=
        invariant.serve_packed none packed now
      have performed : performAll os s ((query :: later).map .malloc) =
          performAll os ⟨m', ⟨x + contentsOffset, query⟩ :: s.live⟩ (later.map .malloc) := by
        simp [performAll, perform, returned, obtained, null, contentsOffset]
      rw [performed]
      by_cases more : x + (pieceSize query + leastRest) ≤ heapEnd s.machine.calls
      · have next : freeFrom x (pieceSize query) (heapEnd s.machine.calls) =
            x + pieceSize query := if_pos more
        rw [next, ← calls] at packed'
        rw [← calls] at more room ⊢
        have none' : gaps (regions m'.calls) = 0 := calls ▸ none
        obtain ⟨s', last, done, calls', live, invariant'', packed''⟩ :=
          ih invariant' none' packed' (if_pos (by simp only; omega)) (by simp only; omega)
        refine ⟨s', last, done, calls', ?_, invariant'', ?_⟩
        · rw [live, backToBack, List.reverse_cons, List.append_assoc]
          rfl
        · rw [freeFrom_add] at packed''
          exact packed''
      · -- what is left is too short for another request
        cases later with
        | nil =>
            refine ⟨_, blocks', rfl, calls, rfl, invariant', ?_⟩
            simpa only [totalSize, List.map_nil, List.sum_nil, Nat.add_zero] using packed'
        | cons next others =>
            have least := leastRest_le_pieceSize next
            rw [totalSize_cons] at room
            omega

end

theorem init_stop {os : Platform} {initial : Nat} {memory : Memory} {m : Machine}
    (returned : heapInit os initial ⟨memory, [], []⟩ = some (heapStart, m)) :
    gaps (regions m.calls) = 0 ∧ heapEnd m.calls = heapStart + regionSize os.pageSize initial := by
  obtain ⟨asked, _⟩ := init_invariant returned
  have one := requestRegion_one asked (by decide)
  constructor
  · rw [one]
    rfl
  · rw [heapEnd, one]
    rfl

/-- On a heap just initialised, requests that its first region can hold are all served,
whatever memory there was and whatever `mmap` would answer: each contents lie behind a header
that begins where the contents before it end, no memory is mapped, and what is left is free
unless it is too short for a block. -/
theorem served_back_to_back {os : Platform} {initial : Nat} {memory : Memory} {m : Machine}
    (returned : heapInit os initial ⟨memory, [], []⟩ = some (heapStart, m)) {queries : List Nat}
    (room : totalSize queries ≤ regionSize os.pageSize initial) :
    ∃ s blocks, performAll os ⟨m, []⟩ (queries.map .malloc) = some s ∧
      s.live = (backToBack heapStart queries).reverse ∧ s.machine.calls = m.calls ∧
      Chain s.machine.memory heapStart blocks ∧
      ∀ y, y ∈ freeCells blocks ↔
        freeFrom heapStart (totalSize queries) (heapStart + regionSize os.pageSize initial) ≤ y ∧
          y < heapStart + regionSize os.pageSize initial := by
  obtain ⟨none, stop⟩ := init_stop returned
  obtain ⟨_, invariant⟩ := init_invariant returned
  have large := (regionSize_bounds os.pageSize initial).1
  have nothing : arenaOf (heapEnd m.calls)
      [freshBlock heapStart (regionSize os.pageSize initial)] =
        ⟨heapStart, heapEnd m.calls, ∅⟩ := by
    simp [arenaOf, takens, freshBlock]
  have packed := empty_packed (stop ▸ Nat.le_add_right _ _ : heapStart ≤ heapEnd m.calls)
  rw [← nothing] at packed
  have rest : freeFrom heapStart 0 (heapEnd m.calls) = heapStart := by
    apply if_pos
    simp only [regionMinSize] at large
    simp only [stop, leastRest, contentsOffset, blockMinCapacity]
    omega
  have whole : heapStart + totalSize queries ≤ heapEnd m.calls := by omega
  obtain ⟨s, blocks, performed, calls, live, invariant', packed'⟩ :=
    invariant.serve_all none packed rest whole
  refine ⟨s, blocks, performed, live.trans (List.append_nil _), calls, invariant'.heap.chain,
    fun y => ?_⟩
  rw [← calls] at packed' none stop
  rw [← stop]
  exact invariant'.free_of_packed none packed' y

/-- The requests of the last test, on the heap it initialises. -/
theorem served_back_to_back_of_tests : ∃ m s,
    heapInit granting 4096 ⟨fun _ => 0, [], []⟩ = some (heapStart, m) ∧
    performAll granting ⟨m, []⟩ [.malloc 128, .malloc 512, .malloc 256] = some s ∧
    s.live = [⟨67371699, 256⟩, ⟨67371170, 512⟩, ⟨67371025, 128⟩] := by
  have placed : (heapInit granting 4096 ⟨fun _ => 0, [], []⟩).map Prod.fst = some heapStart := by
    decide +kernel
  obtain ⟨⟨place, m⟩, returned, rfl⟩ := Option.map_eq_some_iff.mp placed
  have room : totalSize [128, 512, 256] ≤ regionSize granting.pageSize 4096 := by decide
  obtain ⟨s, _, performed, live, _⟩ := served_back_to_back returned room
  exact ⟨m, s, returned, performed, live⟩

end MemoryAllocator
