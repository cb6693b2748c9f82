import MemoryAllocator.EntryPoints
import MemoryAllocator.Admission
import MemoryAllocator.Foundation.Runs

/-! A client of the allocator: it asks for memory, frees what it was given, and writes into
what it holds. -/
namespace MemoryAllocator
open Foundation

/-- What one call of `_malloc` gave the client: the pointer, and the size it had asked for. -/
structure Allocation where
  pointer : Nat
  request : Nat
  deriving DecidableEq, Repr

/-- The bytes the client may use. -/
def Allocation.span (a : Allocation) : Span := ⟨a.pointer, max a.request blockMinCapacity⟩

structure System where
  machine : Machine
  live : List Allocation

/-- A call of `_malloc` is labelled with the pointer it returned. -/
inductive Action where
  | malloc (query pointer : Nat)
  | free (pointer : Nat)
  | write (address : Nat) (byte : UInt8)
  deriving DecidableEq

def obtained (live : List Allocation) (query pointer : Nat) : List Allocation :=
  if pointer = null then live else ⟨pointer, query⟩ :: live

def dropped (live : List Allocation) (pointer : Nat) : List Allocation :=
  live.filter fun a => a.pointer != pointer

/-- Only live pointers are freed, and only bytes of live allocations are written. -/
inductive Step (os : Platform) : System → Action → System → Prop
  | malloc {m m' : Machine} {live : List Allocation} {query pointer : Nat} : query < 2 ^ 64 →
      MemoryAllocator.malloc os query m = some (pointer, m') →
      Step os ⟨m, live⟩ (.malloc query pointer) ⟨m', obtained live query pointer⟩
  | free {m m' : Machine} {live : List Allocation} {a : Allocation} : a ∈ live →
      MemoryAllocator.free os a.pointer m = some ((), m') →
      Step os ⟨m, live⟩ (.free a.pointer) ⟨m', dropped live a.pointer⟩
  | write {m : Machine} {live : List Allocation} {a : Allocation} {address : Nat} {byte : UInt8} :
      a ∈ live → a.span.start ≤ address → address < a.span.stop →
      Step os ⟨m, live⟩ (.write address byte)
        ⟨{ m with memory := writeBytes m.memory address [byte] }, live⟩

/-- `heapInit` has just placed the heap at `heapStart`, in whatever memory there was. -/
inductive Started (os : Platform) : System → Prop
  | init {initial : Nat} {memory : Memory} {m : Machine} : initial < 2 ^ 64 →
      heapInit os initial ⟨memory, [], []⟩ = some (heapStart, m) → Started os ⟨m, []⟩

def Action.Admissible (pageSize : Nat) : Action → Prop
  | .malloc query _ => MemoryAllocator.Admissible pageSize query
  | _ => True

def AdmissibleStep (os : Platform) (s : System) (action : Action) (s' : System) : Prop :=
  action.Admissible os.pageSize ∧ Step os s action s'

/-- The systems that runs with admissible requests reach. -/
def Reachable (os : Platform) (s : System) : Prop :=
  ∃ start actions, Started os start ∧ Run (AdmissibleStep os) start actions s

inductive Request where
  | malloc (query : Nat)
  | free (pointer : Nat)
  deriving DecidableEq, Repr

/-- What an action asks of the allocator; a write asks nothing. -/
def Action.request : Action → Option Request
  | .malloc query _ => some (.malloc query)
  | .free pointer => some (.free pointer)
  | .write _ _ => none

def perform (os : Platform) (s : System) : Request → Option (Action × System)
  | .malloc query =>
      (malloc os query s.machine).map fun (pointer, m') =>
        (.malloc query pointer, ⟨m', obtained s.live query pointer⟩)
  | .free pointer =>
      if s.live.any fun a => a.pointer == pointer then
        (free os pointer s.machine).map fun (_, m') => (.free pointer, ⟨m', dropped s.live pointer⟩)
      else none

def performAll (os : Platform) (s : System) : List Request → Option System
  | [] => some s
  | request :: rest => (perform os s request).bind fun (_, s') => performAll os s' rest

/-- A heap initialised in some memory, and requests made of it in order. -/
def sessionIn (memory : Memory) (os : Platform) (initial : Nat) (requests : List Request) :
    Option System :=
  (heapInit os initial ⟨memory, [], []⟩).bind fun (start, m) =>
    if start = heapStart then performAll os ⟨m, []⟩ requests else none

def session : Platform → Nat → List Request → Option System := sessionIn fun _ => 0

def Request.Admissible (pageSize : Nat) : Request → Prop
  | .malloc query => query < 2 ^ 64 ∧ MemoryAllocator.Admissible pageSize query
  | .free _ => True

instance (pageSize : Nat) (request : Request) : Decidable (request.Admissible pageSize) :=
  match request with
  | .malloc query =>
      inferInstanceAs (Decidable (query < 2 ^ 64 ∧ MemoryAllocator.Admissible pageSize query))
  | .free _ => inferInstanceAs (Decidable True)

theorem perform_step {os : Platform} {s s' : System} {request : Request} {action : Action}
    (admissible : request.Admissible os.pageSize)
    (performed : perform os s request = some (action, s')) : AdmissibleStep os s action s' := by
  cases request with
  | malloc query =>
      obtain ⟨⟨pointer, m'⟩, returned, same⟩ := Option.map_eq_some_iff.mp performed
      obtain ⟨rfl, rfl⟩ := Prod.mk.inj same
      exact ⟨admissible.2, .malloc admissible.1 returned⟩
  | free pointer =>
      simp only [perform] at performed
      split at performed
      · rename_i among
        obtain ⟨⟨_, m'⟩, returned, same⟩ := Option.map_eq_some_iff.mp performed
        obtain ⟨rfl, rfl⟩ := Prod.mk.inj same
        obtain ⟨a, live, named⟩ := List.any_eq_true.mp among
        obtain rfl := beq_iff_eq.mp named
        exact ⟨trivial, .free live returned⟩
      · cases performed

theorem performAll_run {os : Platform} {s s' : System} {requests : List Request}
    (admissible : ∀ r ∈ requests, r.Admissible os.pageSize)
    (performed : performAll os s requests = some s') :
    ∃ actions, Run (AdmissibleStep os) s actions s' ∧
      actions.filterMap Action.request = requests := by
  induction requests generalizing s with
  | nil =>
      obtain rfl := Option.some.inj performed
      exact ⟨[], .nil s, rfl⟩
  | cons request rest ih =>
      obtain ⟨⟨action, s₁⟩, first, later⟩ := Option.bind_eq_some_iff.mp performed
      have others := fun r member => admissible r (List.mem_cons_of_mem request member)
      obtain ⟨actions, run, same⟩ := ih others later
      refine ⟨action :: actions,
        .cons (perform_step (admissible request List.mem_cons_self) first) run, ?_⟩
      have asked : action.request = some request := by
        cases request with
        | malloc query =>
            obtain ⟨_, _, same⟩ := Option.map_eq_some_iff.mp first
            obtain ⟨rfl, _⟩ := Prod.mk.inj same
            rfl
        | free pointer =>
            simp only [perform] at first
            split at first
            · obtain ⟨_, _, same⟩ := Option.map_eq_some_iff.mp first
              obtain ⟨rfl, _⟩ := Prod.mk.inj same
              rfl
            · cases first
      rw [List.filterMap_cons_some asked, same]

theorem performAll_append {os : Platform} {s s' : System} {first later : List Request}
    (performed : performAll os s (first ++ later) = some s') :
    ∃ s₁, performAll os s first = some s₁ ∧ performAll os s₁ later = some s' := by
  induction first generalizing s with
  | nil => exact ⟨s, rfl, performed⟩
  | cons request rest ih =>
      obtain ⟨⟨action, s₂⟩, now, others⟩ := Option.bind_eq_some_iff.mp performed
      obtain ⟨s₁, before, after⟩ := ih others
      exact ⟨s₁, Option.bind_eq_some_iff.mpr ⟨_, now, before⟩, after⟩

theorem session_append {os : Platform} {initial : Nat} {s' : System} {first later : List Request}
    (performed : session os initial (first ++ later) = some s') :
    ∃ s₁, session os initial first = some s₁ ∧ performAll os s₁ later = some s' := by
  obtain ⟨⟨place, m⟩, returned, rest⟩ := Option.bind_eq_some_iff.mp performed
  simp only at rest
  split at rest
  · rename_i placed
    obtain ⟨s₁, before, after⟩ := performAll_append rest
    refine ⟨s₁, Option.bind_eq_some_iff.mpr ⟨_, returned, ?_⟩, after⟩
    simp only
    rw [if_pos placed, before]
  · cases rest

theorem sessionIn_run {memory : Memory} {os : Platform} {initial : Nat} {requests : List Request}
    {s : System} (admissible : ∀ r ∈ requests, r.Admissible os.pageSize)
    (performed : sessionIn memory os initial requests = some s) :
    ∃ m actions, heapInit os initial ⟨memory, [], []⟩ = some (heapStart, m) ∧
      Run (AdmissibleStep os) ⟨m, []⟩ actions s ∧
      actions.filterMap Action.request = requests := by
  obtain ⟨⟨start, m⟩, returned, rest⟩ := Option.bind_eq_some_iff.mp performed
  simp only at rest
  split at rest
  · rename_i placed
    subst placed
    obtain ⟨actions, run, same⟩ := performAll_run admissible rest
    exact ⟨m, actions, returned, run, same⟩
  · cases rest

theorem session_reachable {os : Platform} {initial : Nat} {requests : List Request} {s : System}
    (bound : initial < 2 ^ 64) (admissible : ∀ r ∈ requests, r.Admissible os.pageSize)
    (performed : session os initial requests = some s) : Reachable os s := by
  obtain ⟨m, actions, returned, run, _⟩ := sessionIn_run admissible performed
  exact ⟨_, actions, .init bound returned, run⟩

theorem pageSize_4096 : ∃ k < 31, 4096 = 2 ^ k := ⟨12, by decide, rfl⟩

/-- Pages of 4096 bytes, and every hint granted that may be granted. -/
def granting : Platform where
  pageSize := 4096
  mmap past call :=
    if call.addr ≠ null ∧ 4096 ∣ call.addr ∧ call.addr + call.length < 2 ^ 64 ∧
        ∀ r ∈ regions past, r.stop ≤ call.addr ∨ call.addr + call.length ≤ r.start then
      call.addr
    else mapFailed
  padding _ _ _ := 0
  pageSize_pow := pageSize_4096
  mmap_lawful := by
    intro past call
    split
    · rename_i lawful
      exact .inr lawful
    · exact .inl rfl

/-- Two requests, the second of which makes the heap grow, and a free. -/
def sampleRequests : List Request := [.malloc 100, .malloc 9000, .free 67371025]

theorem sample_served : (session granting 8175 sampleRequests).map
      (fun s => (s.live, s.machine.calls)) = some ([⟨67371142, 9000⟩],
    [⟨mapPagesCall heapStart 8192 mapFixedNoreplace, heapStart⟩,
      ⟨mapPagesCall 67379200 12288 mapFixedNoreplace, 67379200⟩]) := by
  decide +kernel

theorem sample_calls : ∃ s, session granting 8175 sampleRequests = some s ∧
    s.live = [⟨67371142, 9000⟩] ∧ s.machine.calls =
      [⟨mapPagesCall heapStart 8192 mapFixedNoreplace, heapStart⟩,
        ⟨mapPagesCall 67379200 12288 mapFixedNoreplace, 67379200⟩] := by
  obtain ⟨s, performed, same⟩ := Option.map_eq_some_iff.mp sample_served
  obtain ⟨live, calls⟩ := Prod.mk.inj same
  exact ⟨s, performed, live, calls⟩

theorem sample_exists : ∃ s, session granting 8175 sampleRequests = some s ∧
    s.live = [⟨67371142, 9000⟩] := by
  obtain ⟨s, performed, live, _⟩ := sample_calls
  exact ⟨s, performed, live⟩

theorem sample_run : ∃ m actions s, heapInit granting 8175 ⟨fun _ => 0, [], []⟩ =
      some (heapStart, m) ∧ Started granting ⟨m, []⟩ ∧
    Run (AdmissibleStep granting) ⟨m, []⟩ actions s ∧
    actions.filterMap Action.request = sampleRequests ∧ s.live = [⟨67371142, 9000⟩] := by
  obtain ⟨s, performed, live⟩ := sample_exists
  obtain ⟨m, actions, returned, run, requests⟩ := sessionIn_run (by decide) performed
  exact ⟨m, actions, s, returned, .init (by decide) returned, run, requests, live⟩

/-- What a call returned to the client; a call of `_free` returns nothing. -/
def Action.reply : Action → Nat
  | .malloc _ pointer => pointer
  | _ => null

/-- The list, and the calls of `mmap` made for it since some moment. -/
structure ListState where
  blocks : List Block
  later : List MmapEvent

def ListState.perform (pageSize : Nat) (answer : Answers) (t : ListState) :
    Request → Nat × ListState
  | .malloc query =>
      let r := ListAllocator.malloc pageSize (fun more => answer (t.later ++ more)) query t.blocks
      (r.pointer, ⟨r.blocks, t.later ++ r.events⟩)
  | .free pointer => (null, ⟨ListAllocator.free pointer t.blocks, t.later⟩)

theorem since_append (os : Platform) (calls later : List MmapEvent) :
    (fun more => os.since calls (later ++ more)) = os.since (calls ++ later) := by
  funext more call
  simp only [Platform.since, List.append_assoc]

/-- Where the region mapped last ends: the hint of the next request for a region. -/
def heapEnd (calls : List MmapEvent) : Nat := ((regions calls).getLast?.map Span.stop).getD null

/-- `mmap` would refuse both calls for a region that serves the request. -/
def Refused (os : Platform) (calls : List MmapEvent) (query : Nat) : Prop :=
  (requestRegion (os.since calls) (heapEnd calls)
    (regionSize os.pageSize (max query blockMinCapacity))).1 = mapFailed

def Servable (os : Platform) (calls : List MmapEvent) (query : Nat) : Prop :=
  Admissible os.pageSize query ∨ Refused os calls query

def Action.Safe (os : Platform) (s : System) : Action → Prop
  | .malloc query _ => Servable os s.machine.calls query
  | _ => True

def SafeStep (os : Platform) (s : System) (action : Action) (s' : System) : Prop :=
  action.Safe os s ∧ Step os s action s'

def SafelyReachable (os : Platform) (s : System) : Prop :=
  ∃ start actions, Started os start ∧ Run (SafeStep os) start actions s

theorem AdmissibleStep.safe {os : Platform} {s s' : System} {action : Action}
    (step : AdmissibleStep os s action s') : SafeStep os s action s' := by
  obtain ⟨admissible, taken⟩ := step
  refine ⟨?_, taken⟩
  cases action with
  | malloc query pointer => exact .inl admissible
  | free pointer => trivial
  | write address byte => trivial

theorem Reachable.safely {os : Platform} {s : System} (reachable : Reachable os s) :
    SafelyReachable os s := by
  obtain ⟨start, actions, started, run⟩ := reachable
  exact ⟨start, actions, started, run.mono fun _ _ _ step => step.safe⟩

end MemoryAllocator
