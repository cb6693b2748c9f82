import MemoryAllocator.Layout

/-! What the operating system sees of a run: the calls of `mmap`, in order. -/
namespace MemoryAllocator
open Foundation

def mapFixed : Nat := 0x10

/-- All bits of an `int` but `MAP_PRIVATE` and `MAP_ANONYMOUS`. -/
def otherFlags : Nat := (2 ^ 32 - 1) ^^^ mapPrivateAnonymous

/-- `base_mmap_checks`, what the unit tests assert of every call. -/
def baseMmapChecks (call : MmapCall) : Bool :=
  decide (call.length > 0) && call.prot == protReadWrite &&
    (call.flags &&& mapPrivateAnonymous) != 0 &&
    ((call.flags ||| mapFixed) != 0 || (call.flags ||| mapFixedNoreplace) != 0 ||
      (call.flags &&& otherFlags) == 0) &&
    call.fd == -1 && call.offset == 0

theorem mapPagesCall_checked {addr length flags : Nat} (positive : 0 < length)
    (known : flags = mapFixedNoreplace ∨ flags = 0) :
    baseMmapChecks (mapPagesCall addr length flags) = true := by
  have flagged : (mapPrivateAnonymous ||| flags) &&& mapPrivateAnonymous ≠ 0 ∧
      (mapPrivateAnonymous ||| flags) ||| mapFixed ≠ 0 := by
    rcases known with rfl | rfl
    · decide
    · decide
  simp [baseMmapChecks, mapPagesCall, positive, flagged]

def nextHint (calls : List MmapEvent) : Nat :=
  ((regions calls).getLast?.map Span.stop).getD heapStart

/-- Calls made for regions of some sizes, in order: each region is asked for at the end of the
one mapped before it, first with `MAP_FIXED_NOREPLACE` and, if and only if that fails, once
more without. -/
inductive Rounds (pageSize : Nat) : List Nat → List MmapEvent → Prop
  | nil : Rounds pageSize [] []
  | once {asked : List Nat} {calls : List MmapEvent} {query answer : Nat} :
      Rounds pageSize asked calls → answer ≠ mapFailed →
      Rounds pageSize (asked ++ [query]) (calls ++
        [⟨mapPagesCall (nextHint calls) (regionSize pageSize query) mapFixedNoreplace, answer⟩])
  | twice {asked : List Nat} {calls : List MmapEvent} {query answer : Nat} :
      Rounds pageSize asked calls →
      Rounds pageSize (asked ++ [query]) (calls ++
        [⟨mapPagesCall (nextHint calls) (regionSize pageSize query) mapFixedNoreplace, mapFailed⟩,
          ⟨mapPagesCall (nextHint calls) (regionSize pageSize query) 0, answer⟩])

section
variable {pageSize : Nat} {asked : List Nat} {calls : List MmapEvent}

theorem Rounds.checked (rounds : Rounds pageSize asked calls) :
    ∀ e ∈ calls, baseMmapChecks e.call = true := by
  have positive : ∀ query, 0 < regionSize pageSize query := fun query =>
    Nat.lt_of_lt_of_le (by decide) (regionSize_bounds pageSize query).1
  induction rounds with
  | nil => simp
  | @once _ _ query _ _ _ ih =>
      intro e member
      rcases List.mem_append.mp member with earlier | now
      · exact ih e earlier
      · obtain rfl := List.mem_singleton.mp now
        exact mapPagesCall_checked (positive query) (.inl rfl)
  | @twice _ _ query _ _ ih =>
      intro e member
      rcases List.mem_append.mp member with earlier | now
      · exact ih e earlier
      · rcases List.mem_cons.mp now with rfl | now
        · exact mapPagesCall_checked (positive query) (.inl rfl)
        · obtain rfl := List.mem_singleton.mp now
          exact mapPagesCall_checked (positive query) (.inr rfl)

theorem Rounds.request (rounds : Rounds pageSize asked calls) {answer : Answers}
    {query region : Nat} {events : List MmapEvent}
    (requested : requestRegion answer (nextHint calls) (regionSize pageSize query) =
      (region, events)) : Rounds pageSize (asked ++ [query]) (calls ++ events) := by
  unfold requestRegion at requested
  simp only at requested
  split at requested
  · rename_i failed
    obtain ⟨_, rfl⟩ := Prod.mk.inj requested
    rw [failed]
    exact .twice rounds
  · rename_i mapped
    obtain ⟨_, rfl⟩ := Prod.mk.inj requested
    exact .once rounds mapped

end

/-- What a run asks of `_malloc`, in order, each rounded up to the least capacity. -/
def askedOf (actions : List Action) : List Nat :=
  actions.filterMap fun action =>
    match action with
    | .malloc query _ => some (max query blockMinCapacity)
    | _ => none

section
variable {os : Platform} {s s' : System} {blocks : List Block} {asked : List Nat}

theorem Invariant.nextHint_eq (invariant : Invariant os s blocks) :
    nextHint s.machine.calls = heapEnd s.machine.calls := by
  have nonempty := invariant.regions_ne_nil
  simp only [nextHint, heapEnd, List.getLast?_eq_some_getLast nonempty, Option.map_some,
    Option.getD_some]

theorem Invariant.rounds_reply (invariant : Invariant os s blocks) {query : Nat} {r : Reply}
    (rounds : Rounds os.pageSize asked s.machine.calls)
    (outcome : Outcome os.pageSize (os.since s.machine.calls) query blocks r) :
    ∃ more, more.Sublist [query] ∧
      Rounds os.pageSize (asked ++ more) (s.machine.calls ++ r.events) := by
  cases outcome with
  | found => exact ⟨[], List.nil_sublist _, by simpa using rounds⟩
  | refused searched requested =>
      rw [invariant.hint searched, ← invariant.nextHint_eq] at requested
      exact ⟨[query], List.Sublist.refl _, rounds.request requested⟩
  | grown searched requested _ _ =>
      rw [invariant.hint searched, ← invariant.nextHint_eq] at requested
      exact ⟨[query], List.Sublist.refl _, rounds.request requested⟩

theorem Invariant.rounds_step (invariant : Invariant os s blocks) {action : Action}
    (rounds : Rounds os.pageSize asked s.machine.calls) (step : AdmissibleStep os s action s') :
    ∃ more, more.Sublist (askedOf [action]) ∧
      Rounds os.pageSize (asked ++ more) s'.machine.calls := by
  obtain ⟨_, step⟩ := step
  cases step with
  | malloc _ returned =>
      obtain ⟨outcome, _, grown, _, _⟩ := invariant.heap.replied returned
      rw [grown]
      exact invariant.rounds_reply rounds outcome
  | free live returned =>
      rw [(invariant.free_step live returned).1]
      exact ⟨[], List.nil_sublist _, by simpa using rounds⟩
  | write => exact ⟨[], List.nil_sublist _, by simpa using rounds⟩

theorem Run.rounds {actions : List Action} (run : Run (AdmissibleStep os) s actions s')
    (invariant : ∃ blocks, Invariant os s blocks)
    (rounds : Rounds os.pageSize asked s.machine.calls) :
    ∃ more, more.Sublist (askedOf actions) ∧
      Rounds os.pageSize (asked ++ more) s'.machine.calls := by
  induction run generalizing asked with
  | nil => exact ⟨[], List.nil_sublist _, by simpa using rounds⟩
  | @cons s s₁ s' action actions first _ ih =>
      obtain ⟨blocks, invariant⟩ := invariant
      obtain ⟨now, among, rounds'⟩ := invariant.rounds_step rounds first
      obtain ⟨later, among', rounds''⟩ := ih (invariant.step first.safe) rounds'
      refine ⟨now ++ later, ?_, List.append_assoc asked now later ▸ rounds''⟩
      have parts : askedOf (action :: actions) = askedOf [action] ++ askedOf actions :=
        List.filterMap_append (l := [action])
      rw [parts]
      exact among.append among'

end

/-- Over a whole run the calls of `mmap` are rounds for the first region and for some of the
requests, in the order of these; each call passes the checks of the unit tests. -/
theorem calls_in_rounds {os : Platform} {initial : Nat} {memory : Memory} {m : Machine}
    {actions : List Action} {s : System}
    (returned : heapInit os initial ⟨memory, [], []⟩ = some (heapStart, m))
    (run : Run (AdmissibleStep os) ⟨m, []⟩ actions s) :
    (∃ asked, asked.Sublist (askedOf actions) ∧
      Rounds os.pageSize (initial :: asked) s.machine.calls) ∧
    ∀ e ∈ s.machine.calls, baseMmapChecks e.call = true := by
  obtain ⟨requested, invariant⟩ := init_invariant returned
  have none : Rounds os.pageSize [] [] := .nil
  have first : Rounds os.pageSize [initial] m.calls := none.request requested
  obtain ⟨asked, among, rounds⟩ := Run.rounds run ⟨_, invariant⟩ first
  exact ⟨⟨asked, among, rounds⟩, rounds.checked⟩

/-- Of the three requests one made the heap grow. -/
theorem calls_in_rounds_of_three : ∃ (m : Machine) (actions : List Action) (s : System)
    (asked : List Nat), heapInit granting 8175 ⟨fun _ => 0, [], []⟩ = some (heapStart, m) ∧
    actions.filterMap Action.request = sampleRequests ∧ asked.Sublist (askedOf actions) ∧
    Rounds 4096 (8175 :: asked) s.machine.calls ∧ s.machine.calls.length = 2 := by
  obtain ⟨s, performed, _, calls⟩ := sample_calls
  obtain ⟨m, actions, returned, run, requests⟩ := sessionIn_run (by decide) performed
  obtain ⟨⟨asked, among, rounds⟩, _⟩ := calls_in_rounds returned run
  exact ⟨m, actions, s, asked, returned, requests, among, rounds, by rw [calls]; rfl⟩

end MemoryAllocator
