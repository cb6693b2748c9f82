import MemoryAllocator.Safety
import MemoryAllocator.Foundation.Objects

/-! The heap as its client sees it: a store of disjoint objects, one for each live allocation,
that hold what was last written to them. -/
namespace MemoryAllocator
open Foundation

/-- The object of an allocation: all the bytes the client may use. -/
def Allocation.object (memory : Memory) (a : Allocation) : Object UInt8 :=
  ⟨a.pointer, readBytes memory a.pointer (max a.request blockMinCapacity)⟩

def System.objects (s : System) : List (Object UInt8) :=
  s.live.map (Allocation.object s.machine.memory)

/-- What an action does to the objects; a request that fails does nothing. -/
def Action.event : Action → ObjectEvent UInt8
  | .malloc query pointer =>
      if pointer = null then .idle else .create pointer (max query blockMinCapacity)
  | .free pointer => .drop pointer
  | .write address byte => .put address byte

theorem readBytes_length (memory : Memory) (address count : Nat) :
    (readBytes memory address count).length = count := by
  simp [readBytes]

theorem readBytes_getElem? {memory : Memory} {address count i : Nat} (inside : i < count) :
    (readBytes memory address count)[i]? = some (memory (address + i)) := by
  simp [readBytes, inside]

theorem readBytes_write {memory : Memory} {address base count : Nat} {byte : UInt8}
    (above : base ≤ address) : readBytes (writeBytes memory address [byte]) base count =
      (readBytes memory base count).set (address - base) byte := by
  apply List.ext_getElem (by simp only [readBytes_length, List.length_set])
  intro i _ inside
  simp only [List.length_set, readBytes_length] at inside
  simp only [List.getElem_set, readBytes, List.getElem_map, List.getElem_range', Nat.one_mul]
  by_cases here : address - base = i
  · obtain rfl : address = base + i := by omega
    rw [if_pos here, writeBytes_head]
  · rw [if_neg here]
    apply writeBytes_outside
    simp only [List.length_singleton]
    omega

namespace Allocation

@[simp] theorem object_base (memory : Memory) (a : Allocation) :
    (a.object memory).base = a.pointer := rfl

@[simp] theorem object_span (memory : Memory) (a : Allocation) :
    (a.object memory).span = a.span := by
  simp only [Object.span, object, readBytes_length, span]

theorem object_congr {memory memory' : Memory} {a : Allocation}
    (same : ∀ x, a.span.start ≤ x → x < a.span.stop → memory' x = memory x) :
    a.object memory' = a.object memory :=
  congrArg (Object.mk a.pointer) (readBytes_congr same)

theorem object_write {memory : Memory} {address : Nat} {byte : UInt8} (a : Allocation) :
    a.object (writeBytes memory address [byte]) = (a.object memory).put address byte := by
  unfold Object.put
  split
  · rename_i above
    exact congrArg (Object.mk a.pointer) (readBytes_write above)
  · rename_i above
    rw [object_base] at above
    refine congrArg (Object.mk a.pointer) (readBytes_congr fun x lower _ => writeBytes_outside ?_)
    rw [List.length_singleton]
    omega

end Allocation

section
variable {os : Platform} {s s' : System} {blocks : List Block} {action : Action}

theorem Invariant.keeps_object (invariant : Invariant os s blocks) (step : SafeStep os s action s')
    (call : action.request ≠ none) {a : Allocation} (live : a ∈ s.live)
    (other : action ≠ .free a.pointer) :
    a.object s'.machine.memory = a.object s.machine.memory := by
  obtain ⟨b, taken, serves⟩ := invariant.owned.served a live
  obtain ⟨start, stop⟩ := serves.within
  rw [← serves.pointer] at other
  have kept := (invariant.keeps_block step call taken other).1
  apply Allocation.object_congr
  intro x lower upper
  simp only [contentsOffset] at start
  exact kept x (by omega) (by omega)

theorem Invariant.newest_apart {m : Machine} {a newest : Allocation} {live : List Allocation}
    (invariant : Invariant os ⟨m, newest :: live⟩ blocks) (member : a ∈ live) :
    newest.span.Apart a.span := by
  have distinct := (List.nodup_cons.mp invariant.owned.distinct).1
  refine invariant.live_apart List.mem_cons_self (List.mem_cons_of_mem _ member) ?_
  exact fun same => distinct (List.mem_map.mpr ⟨a, member, same.symm⟩)

theorem Invariant.objects_step (invariant : Invariant os s blocks)
    (step : AdmissibleStep os s action s') : ObjectStep s.objects action.event s'.objects := by
  have safe := step.safe
  obtain ⟨_, taken⟩ := step
  cases taken with
  | @malloc m m' live query pointer _ returned =>
      have kept : live.map (Allocation.object m'.memory) =
          live.map (Allocation.object m.memory) := by
        apply List.map_congr_left
        intro a member
        exact invariant.keeps_object safe (by simp [Action.request]) member (by simp)
      by_cases failed : pointer = null
      · simp only [System.objects, Action.event, obtained, if_pos failed, kept]
        exact .idle
      · obtain ⟨_, _, _, invariant'⟩ := invariant.malloc_step safe.1 rfl returned
        rw [obtained, if_neg failed] at invariant'
        have size : (Allocation.object m'.memory ⟨pointer, query⟩).values.length =
            max query blockMinCapacity := readBytes_length _ _ _
        simp only [System.objects, Action.event, obtained, if_neg failed, List.map_cons, kept]
        rw [← size]
        refine .create (o := Allocation.object m'.memory ⟨pointer, query⟩) ?_ ?_
        · rw [size]
          exact lt_of_lt_of_le (by decide) (Nat.le_max_right query blockMinCapacity)
        · intro p member
          obtain ⟨a, old, rfl⟩ := List.mem_map.mp member
          rw [Allocation.object_span, Allocation.object_span]
          exact invariant'.newest_apart old
  | @free m m' live a member returned =>
      have kept : (dropped live a.pointer).map (Allocation.object m'.memory) =
          (dropped live a.pointer).map (Allocation.object m.memory) := by
        apply List.map_congr_left
        intro c among
        obtain ⟨old, other⟩ := mem_dropped.mp among
        refine invariant.keeps_object safe (by simp [Action.request]) old ?_
        exact fun same => other (Action.free.inj same).symm
      have filtered : (live.map (Allocation.object m.memory)).filter
            (fun o => o.base != a.pointer) =
          (dropped live a.pointer).map (Allocation.object m.memory) := List.filter_map
      simp only [System.objects, Action.event, kept, ← filtered]
      exact .drop (o := a.object m.memory) (List.mem_map_of_mem member)
  | @write m live a address byte member lower upper =>
      have moved : live.map (Allocation.object (writeBytes m.memory address [byte])) =
          (live.map (Allocation.object m.memory)).map (Object.put address byte) := by
        rw [List.map_map]
        exact List.map_congr_left fun c _ => c.object_write
      simp only [System.objects, Action.event, moved]
      refine .put (List.mem_map_of_mem member) ?_ ?_
      · rwa [Allocation.object_span]
      · rwa [Allocation.object_span]

theorem Invariant.objects_run (invariant : Invariant os s blocks) {actions : List Action}
    (run : Run (AdmissibleStep os) s actions s') :
    Run ObjectStep s.objects (actions.map Action.event) s'.objects := by
  refine run.translate (I := fun s => ∃ blocks, Invariant os s blocks) ?_ ?_ ⟨blocks, invariant⟩
  · rintro s action s' ⟨blocks, invariant⟩ step
    exact invariant.step step.safe
  · rintro s action s' ⟨blocks, invariant⟩ step
    exact invariant.objects_step step

theorem Invariant.along (invariant : Invariant os s blocks) {actions : List Action}
    (run : Run (AdmissibleStep os) s actions s') : ∃ blocks', Invariant os s' blocks' := by
  refine run.invariant (I := fun s => ∃ blocks, Invariant os s blocks) ?_ ⟨blocks, invariant⟩
  rintro s action s' ⟨blocks, invariant⟩ step
  exact invariant.step step.safe

theorem live_kept {actions : List Action} (run : Run (AdmissibleStep os) s actions s')
    {a : Allocation} (live : a ∈ s.live) (unfreed : .free a.pointer ∉ actions) : a ∈ s'.live := by
  have preserved : ∀ s action s', action ≠ .free a.pointer → a ∈ s.live →
      AdmissibleStep os s action s' → a ∈ s'.live := by
    rintro s action s' other live ⟨_, step⟩
    cases step with
    | @malloc m m' before query pointer _ _ =>
        simp only [obtained]
        split
        · exact live
        · exact List.mem_cons_of_mem _ live
    | @free m m' before c _ _ =>
        exact mem_dropped.mpr ⟨live, fun same => other (congrArg _ same.symm)⟩
    | write => exact live
  refine run.invariant_among preserved ?_ live
  rintro action among rfl
  exact unfreed among

/-- What the object of a live allocation held at an address of its own. -/
theorem object_value {memory : Memory} {a : Allocation} {x : Nat} (lower : a.span.start ≤ x)
    (upper : x < a.span.stop) : (a.object memory).values[x - a.pointer]? = some (memory x) := by
  have offset : a.pointer + (x - a.pointer) = x := Nat.add_sub_cancel' lower
  simp only [Allocation.span, Span.stop] at upper
  rw [Allocation.object, readBytes_getElem? (by omega), offset]

theorem Invariant.object_unique (invariant : Invariant os s blocks) {a : Allocation}
    (live : a ∈ s.live) {o : Object UInt8} (member : o ∈ s.objects) (same : o.base = a.pointer) :
    o = a.object s.machine.memory := by
  obtain ⟨c, live', rfl⟩ := List.mem_map.mp member
  have one : c = a := List.inj_on_of_nodup_map invariant.owned.distinct live' live same
  rw [one]

end

/-- A whole run reads as a run over a store of disjoint objects that starts empty: the client
cannot tell the heap from it. And whatever the store would allow next is possible: every
admissible request returns, every object can be freed, every byte of one can be written. -/
theorem runs_over_objects {os : Platform} {start s : System} {actions : List Action}
    (started : Started os start) (run : Run (AdmissibleStep os) start actions s) :
    Run ObjectStep [] (actions.map Action.event) s.objects ∧ Separate s.objects ∧
      (∀ query < 2 ^ 64, Admissible os.pageSize query →
        ∃ pointer s', AdmissibleStep os s (.malloc query pointer) s') ∧
      ∀ o ∈ s.objects, (∃ s', AdmissibleStep os s (.free o.base) s') ∧
        ∀ address byte, o.span.start ≤ address → address < o.span.stop →
          ∃ s', AdmissibleStep os s (.write address byte) s' := by
  have begun : Reachable os start := ⟨start, [], started, .nil start⟩
  have reachable : Reachable os s := ⟨start, actions, started, run⟩
  obtain ⟨_, invariant⟩ := begun.invariant
  obtain ⟨blocks, invariant'⟩ := reachable.invariant
  obtain ⟨_, _⟩ := started
  have objects := invariant.objects_run run
  refine ⟨objects, ?_, ?_, ?_⟩
  · exact objects.invariant (fun _ _ _ separate step => step.separate separate) List.Pairwise.nil
  · intro query bound admissible
    obtain ⟨pointer, m', returned⟩ := invariant'.malloc_returns query
    exact ⟨pointer, _, admissible, .malloc bound returned⟩
  · intro o member
    obtain ⟨a, live, rfl⟩ := List.mem_map.mp member
    constructor
    · obtain ⟨m', returned⟩ := invariant'.free_returns live
      exact ⟨_, trivial, .free live returned⟩
    · intro address byte lower upper
      rw [Allocation.object_span] at lower upper
      exact ⟨_, trivial, .write live lower upper⟩

theorem runs_over_objects_of_three : ∃ (m : Machine) (actions : List Action) (s : System),
    heapInit granting 8175 ⟨fun _ => 0, [], []⟩ = some (heapStart, m) ∧
    actions.filterMap Action.request = sampleRequests ∧ s.live.length = 1 ∧
    Run ObjectStep [] (actions.map Action.event) s.objects := by
  obtain ⟨m, actions, s, returned, started, run, requests, live⟩ := sample_run
  have one : s.live.length = 1 := congrArg List.length live
  exact ⟨m, actions, s, returned, requests, one, (runs_over_objects started run).1⟩

/-- Over any run that does not free it a live allocation stays live, and each of its bytes is
the one written last at its address, or the one it held at first. -/
theorem live_data_last_written {os : Platform} {s s' : System} {actions : List Action}
    {a : Allocation} (reachable : Reachable os s) (run : Run (AdmissibleStep os) s actions s')
    (live : a ∈ s.live) (unfreed : .free a.pointer ∉ actions) :
    a ∈ s'.live ∧ ∀ x, a.span.start ≤ x → x < a.span.stop →
      s'.machine.memory x = lastPut x (s.machine.memory x) (actions.map Action.event) := by
  have live' := live_kept run live unfreed
  refine ⟨live', fun x lower upper => ?_⟩
  obtain ⟨blocks, invariant⟩ := reachable.invariant
  obtain ⟨blocks', invariant'⟩ := invariant.along run
  have kept : .drop (a.object s.machine.memory).base ∉ actions.map Action.event := by
    intro dropped
    obtain ⟨action, among, same⟩ := List.mem_map.mp dropped
    cases action with
    | malloc query pointer =>
        simp only [Action.event] at same
        split at same <;> cases same
    | free pointer =>
        obtain rfl := ObjectEvent.drop.inj same
        exact unfreed among
    | write => cases same
  have member := ObjectStep.run_keeps (invariant.objects_run run) (List.mem_map_of_mem live) kept
  have one := congrArg (fun o => o.values[x - a.pointer]?)
    (invariant'.object_unique live' member rfl)
  have offset : a.pointer + (x - a.pointer) = x := Nat.add_sub_cancel' lower
  simp only [Object.after, List.getElem?_mapIdx, object_value lower upper, Option.map_some,
    Allocation.object_base, offset, Option.some.injEq] at one
  exact one.symm

/-- A byte is written twice, with a request in between. -/
theorem live_data_last_written_of_two : ∃ s s' pointer,
    session granting 8175 sampleRequests = some s ∧
    Run (AdmissibleStep granting) s
      [.write 67371150 7, .malloc 200 pointer, .write 67371150 9] s' ∧
    s'.machine.memory 67371150 = 9 := by
  obtain ⟨s, performed, live⟩ := sample_exists
  have reachable := session_reachable (by decide) (by decide) performed
  obtain ⟨blocks, invariant⟩ := reachable.invariant
  have member : ⟨67371142, 9000⟩ ∈ s.live := by simp [live]
  have lower : (Allocation.span ⟨67371142, 9000⟩).start ≤ 67371150 := by decide
  have upper : 67371150 < (Allocation.span ⟨67371142, 9000⟩).stop := by decide
  have written : Invariant granting
      ⟨{ s.machine with memory := writeBytes s.machine.memory 67371150 [7] }, s.live⟩ blocks :=
    invariant.write_step member lower upper
  obtain ⟨pointer, m', returned⟩ := written.malloc_returns 200
  have admissible : Admissible granting.pageSize 200 := by decide
  have request : AdmissibleStep granting _ (.malloc 200 pointer)
      ⟨m', obtained s.live 200 pointer⟩ :=
    ⟨admissible, .malloc (by decide) returned⟩
  have still : ⟨67371142, 9000⟩ ∈ obtained s.live 200 pointer := by
    simp only [obtained]
    split
    · exact member
    · exact List.mem_cons_of_mem _ member
  have write : AdmissibleStep granting s (.write 67371150 7) _ :=
    ⟨trivial, .write member lower upper⟩
  have again : AdmissibleStep granting ⟨m', obtained s.live 200 pointer⟩ (.write 67371150 9) _ :=
    ⟨trivial, .write still lower upper⟩
  have run := Run.cons write (.cons request (.cons again (.nil _)))
  exact ⟨s, _, pointer, performed, run,
    (live_data_last_written reachable run member (by simp)).2 67371150 lower upper⟩

end MemoryAllocator
