import MemoryAllocator.EagerHeap

/-! Runs compared with runs: with the reference, with a run on other data, and with the run in
which a failed request was never made. -/
namespace MemoryAllocator
open Foundation

theorem Run.safe {os : Platform} {s s' : System} {actions : List Action}
    (run : Run (AdmissibleStep os) s actions s') : Run (SafeStep os) s actions s' :=
  run.mono fun _ _ _ step => step.safe

theorem init_settles {os : Platform} {initial : Nat} {memory : Memory} {m : Machine}
    (returned : heapInit os initial ⟨memory, [], []⟩ = some (heapStart, m)) :
    Settles os [] ⟨m, []⟩ (EagerState.init os initial) := by
  obtain ⟨asked, invariant⟩ := init_invariant returned
  refine ⟨_, invariant, ?_, ?_⟩
  · simp only [EagerState.init, asked]
    rfl
  · simp only [EagerState.init, asked]
    rfl

/-- Over any run the allocator replies as the reference does and makes the same calls of
`mmap`, and its list settles to the list of the reference. -/
theorem run_refines_eager {os : Platform} {initial : Nat} {memory : Memory} {m : Machine}
    {actions : List Action} {s : System}
    (returned : heapInit os initial ⟨memory, [], []⟩ = some (heapStart, m))
    (run : Run (AdmissibleStep os) ⟨m, []⟩ actions s) :
    replies Action.request Action.reply actions =
        (respond (EagerState.perform os.pageSize (os.since [])) (EagerState.init os initial)
          (actions.filterMap Action.request)).1 ∧
      s.machine.calls =
        (respond (EagerState.perform os.pageSize (os.since [])) (EagerState.init os initial)
          (actions.filterMap Action.request)).2.later ∧
      ∃ blocks, Chain s.machine.memory heapStart blocks ∧ Block.fusion.coalesce blocks =
        (respond (EagerState.perform os.pageSize (os.since [])) (EagerState.init os initial)
          (actions.filterMap Action.request)).2.blocks := by
  obtain ⟨same, blocks, invariant, settled, calls⟩ :=
    (settles_follows os []).run (Run.safe run) (init_settles returned)
  exact ⟨same, calls, blocks, invariant.heap.chain, settled⟩

theorem run_refines_eager_of_three : ∃ m actions s,
    heapInit granting 8175 ⟨fun _ => 0, [], []⟩ = some (heapStart, m) ∧
    Run (AdmissibleStep granting) ⟨m, []⟩ actions s ∧
    actions.filterMap Action.request = [.malloc 100, .malloc 9000, .free 67371025] ∧
    replies Action.request Action.reply actions =
      (respond (EagerState.perform 4096 (granting.since [])) (EagerState.init granting 8175)
        [.malloc 100, .malloc 9000, .free 67371025]).1 := by
  have served :
      (session granting 8175 [.malloc 100, .malloc 9000, .free 67371025]).isSome = true := by
    decide +kernel
  obtain ⟨s, performed⟩ := Option.isSome_iff_exists.mp served
  obtain ⟨m, actions, returned, run, requests⟩ := sessionIn_run (by decide) performed
  obtain ⟨same, _⟩ := run_refines_eager returned run
  rw [requests] at same
  exact ⟨m, actions, s, returned, run, requests, same⟩

/-- Two runs that make the same requests of the same operating system, in memories and with
writes of their own, get the same replies and the same list. -/
theorem runs_agree {os os' : Platform} (page : os'.pageSize = os.pageSize)
    (kernel : os'.mmap = os.mmap) {initial : Nat} {memory memory' : Memory} {m m' : Machine}
    {actions actions' : List Action} {s s' : System}
    (returned : heapInit os initial ⟨memory, [], []⟩ = some (heapStart, m))
    (returned' : heapInit os' initial ⟨memory', [], []⟩ = some (heapStart, m'))
    (run : Run (AdmissibleStep os) ⟨m, []⟩ actions s)
    (run' : Run (AdmissibleStep os') ⟨m', []⟩ actions' s')
    (requests : actions.filterMap Action.request = actions'.filterMap Action.request) :
    replies Action.request Action.reply actions = replies Action.request Action.reply actions' ∧
      s.machine.calls = s'.machine.calls ∧
      ∃ blocks, Chain s.machine.memory heapStart blocks ∧
        Chain s'.machine.memory heapStart blocks := by
  have since : os'.since [] = os.since [] := by
    funext more call
    simp only [Platform.since, kernel]
  obtain ⟨asked, invariant⟩ := init_invariant returned
  obtain ⟨asked', invariant'⟩ := init_invariant returned'
  rw [page, since, asked] at asked'
  obtain ⟨_, calls⟩ := Prod.mk.inj asked'
  rw [page] at invariant'
  -- both runs follow the list allocator from one and the same list
  have first := (represents_follows os []).run (Run.safe run)
    (t := ⟨[freshBlock heapStart (regionSize os.pageSize initial)], m.calls⟩) ⟨invariant, rfl⟩
  have second := (represents_follows os' []).run (Run.safe run')
    (t := ⟨[freshBlock heapStart (regionSize os.pageSize initial)], m.calls⟩)
    ⟨invariant', calls.symm⟩
  rw [page, since, ← requests] at second
  obtain ⟨same, ended, grown⟩ := first
  obtain ⟨same', ended', grown'⟩ := second
  exact ⟨same.trans same'.symm, grown.trans grown'.symm, _, ended.heap.chain, ended'.heap.chain⟩

theorem runs_agree_of_write : ∃ m m' actions actions' s s',
    heapInit granting 8175 ⟨fun _ => 0, [], []⟩ = some (heapStart, m) ∧
    heapInit granting 8175 ⟨fun _ => 255, [], []⟩ = some (heapStart, m') ∧
    Run (AdmissibleStep granting) ⟨m, []⟩ actions s ∧
    Run (AdmissibleStep granting) ⟨m', []⟩ actions' s' ∧ Action.write 67371025 7 ∈ actions' ∧
    replies Action.request Action.reply actions = replies Action.request Action.reply actions' := by
  have served : (session granting 8175 [.malloc 100]).isSome = true := by decide +kernel
  have served' : (sessionIn (fun _ => 255) granting 8175 [.malloc 100]).map (·.live) =
      some [⟨67371025, 100⟩] := by
    decide +kernel
  obtain ⟨s, performed⟩ := Option.isSome_iff_exists.mp served
  obtain ⟨s', performed', live⟩ := Option.map_eq_some_iff.mp served'
  obtain ⟨m, actions, returned, run, requests⟩ := sessionIn_run (by decide) performed
  obtain ⟨m', actions', returned', run', requests'⟩ := sessionIn_run (by decide) performed'
  have write : AdmissibleStep granting s' (.write 67371025 7)
      ⟨{ s'.machine with memory := writeBytes s'.machine.memory 67371025 [7] }, s'.live⟩ :=
    ⟨trivial, .write (a := ⟨67371025, 100⟩) (by simp [live]) (by decide) (by decide)⟩
  have same : actions.filterMap Action.request =
      (actions' ++ [Action.write 67371025 7]).filterMap Action.request := by
    rw [requests, List.filterMap_append, requests']
    rfl
  obtain ⟨agree, _⟩ := runs_agree rfl rfl returned returned' run (run'.snoc write) same
  exact ⟨m, m', actions, _, s, _, returned, returned', run, run'.snoc write, by simp, agree⟩

theorem Invariant.other_system {os os' : Platform} (page : os'.pageSize = os.pageSize) {s : System}
    {blocks : List Block} (invariant : Invariant os s blocks) : Invariant os' s blocks := by
  refine ⟨invariant.heap, invariant.owned, ?_⟩
  intro r member
  rw [page]
  exact invariant.placed r member

/-- Two systems with the same client whose lists settle to the same list. -/
structure Alike (os os' : Platform) (calls calls' : List MmapEvent) (s t : System) : Prop where
  live : s.live = t.live
  settled : ∃ e, Settles os calls s e ∧ Settles os' calls' t e

/-- Whatever happens in one of two such systems can happen in the other. -/
theorem Alike.step {os os' : Platform} {calls calls' : List MmapEvent}
    (page : os'.pageSize = os.pageSize) (since : os'.since calls' = os.since calls)
    {s s' t : System} {action : Action} (alike : Alike os os' calls calls' s t)
    (step : AdmissibleStep os s action s') :
    ∃ t', AdmissibleStep os' t action t' ∧ Alike os os' calls calls' s' t' := by
  obtain ⟨n, _⟩ := t
  obtain ⟨rfl, e, first, second⟩ := alike
  obtain ⟨_, invariant', _⟩ := id second
  have safe := step.safe
  obtain ⟨admissible, taken⟩ := step
  cases taken with
  | @malloc m m' live query pointer bound returned =>
      obtain ⟨pointer', n', returned'⟩ := invariant'.malloc_returns query
      have step' : AdmissibleStep os' ⟨n, live⟩ (.malloc query pointer')
          ⟨n', obtained live query pointer'⟩ := ⟨page ▸ admissible, .malloc bound returned'⟩
      obtain ⟨reply, ended⟩ := (settles_follows os calls).matched first safe rfl
      obtain ⟨reply', ended'⟩ := (settles_follows os' calls').matched second step'.safe rfl
      rw [page, since] at reply' ended'
      obtain rfl : pointer' = pointer := reply'.trans reply.symm
      exact ⟨_, step', rfl, _, ended, ended'⟩
  | @free m m' live a member returned =>
      obtain ⟨n', returned'⟩ := invariant'.free_returns member
      have step' : AdmissibleStep os' ⟨n, live⟩ (.free a.pointer)
          ⟨n', dropped live a.pointer⟩ := ⟨trivial, .free member returned'⟩
      have ended := ((settles_follows os calls).matched first safe rfl).2
      have ended' := ((settles_follows os' calls').matched second step'.safe rfl).2
      rw [page, since] at ended'
      exact ⟨_, step', rfl, _, ended, ended'⟩
  | @write m live a address byte member lower upper =>
      have step' : AdmissibleStep os' ⟨n, live⟩ (.write address byte)
          ⟨{ n with memory := writeBytes n.memory address [byte] }, live⟩ :=
        ⟨trivial, .write member lower upper⟩
      have ended := (settles_follows os calls).silent first safe rfl
      have ended' := (settles_follows os' calls').silent second step'.safe rfl
      exact ⟨_, step', rfl, _, ended, ended'⟩

theorem Alike.later {os os' : Platform} {calls calls' : List MmapEvent}
    (page : os'.pageSize = os.pageSize) (since : os'.since calls' = os.since calls)
    {s s' t : System} {actions : List Action} (alike : Alike os os' calls calls' s t)
    (run : Run (AdmissibleStep os) s actions s') :
    (∃ t', Run (AdmissibleStep os') t actions t') ∧
      ∀ actions' t', Run (AdmissibleStep os') t actions' t' →
        actions.filterMap Action.request = actions'.filterMap Action.request →
        replies Action.request Action.reply actions =
            replies Action.request Action.reply actions' ∧
          ∃ later, s'.machine.calls = calls ++ later ∧ t'.machine.calls = calls' ++ later := by
  constructor
  · obtain ⟨t', run', _⟩ := run.mirror (Alike.step page since) alike
    exact ⟨t', run'⟩
  · intro actions' t' run' requests
    obtain ⟨_, _, first, second⟩ := alike
    have served := (settles_follows os calls).run (Run.safe run) first
    have served' := (settles_follows os' calls').run (Run.safe run') second
    rw [page, since, ← requests] at served'
    obtain ⟨same, _, _, _, grown⟩ := served
    obtain ⟨same', _, _, _, grown'⟩ := served'
    exact ⟨same.trans same'.symm, _, grown, grown'⟩

/-- A request that fails joins the free neighbours of the list and does nothing else, and no
later request can tell whether it was ever made: what happens afterwards can also happen
without it, and the same requests get the same replies and make the same calls. -/
theorem failed_malloc_unobservable {os : Platform} {s : System} (reachable : Reachable os s)
    {query : Nat} {m : Machine} (failed : malloc os query s.machine = some (null, m)) :
    (∃ first second, m.calls = s.machine.calls ++ [first, second] ∧
      first.answer = mapFailed ∧ second.answer = mapFailed) ∧
    (∃ blocks, Chain s.machine.memory heapStart blocks ∧
      Chain m.memory heapStart (Block.fusion.coalesce blocks) ∧
      takens (Block.fusion.coalesce blocks) = takens blocks ∧
      extents (Block.fusion.coalesce blocks) = extents blocks ∧
      (∀ b ∈ (Block.fusion.coalesce blocks).getLast?, (header m.memory b.addr).next = null) ∧
      ∀ b ∈ takens blocks, ∀ x, b.contents ≤ x → x < b.stop → m.memory x = s.machine.memory x) ∧
    ∀ os' : Platform, os'.pageSize = os.pageSize → os'.since s.machine.calls = os.since m.calls →
      ∀ actions s₁, Run (AdmissibleStep os) ⟨m, s.live⟩ actions s₁ →
        (∃ s₂, Run (AdmissibleStep os') s actions s₂) ∧
        ∀ actions' s₂, Run (AdmissibleStep os') s actions' s₂ →
          actions.filterMap Action.request = actions'.filterMap Action.request →
          replies Action.request Action.reply actions =
              replies Action.request Action.reply actions' ∧
            ∃ later, s₁.machine.calls = m.calls ++ later ∧
              s₂.machine.calls = s.machine.calls ++ later := by
  obtain ⟨blocks, invariant⟩ := reachable.invariant
  obtain ⟨outcome, pointer, calls, evolves, _⟩ := invariant.heap.replied failed
  obtain ⟨refused, settled, size, events⟩ := invariant.refused_of_null outcome pointer.symm
  obtain ⟨_, _, _, invariant'⟩ := invariant.malloc_step (.inr refused) rfl failed
  rw [settled] at invariant' evolves
  rw [events] at calls
  have fuses := Fusion.fuses_coalesce (F := Block.fusion) blocks
  refine ⟨⟨_, _, calls, rfl, rfl⟩, ⟨blocks, invariant.heap.chain, invariant'.heap.chain,
    takens_fuses fuses, extents_fuses fuses, ?_, ?_⟩, ?_⟩
  · intro b last
    obtain ⟨front, same⟩ := List.getLast?_eq_some_iff.mp last
    have linked := invariant'.heap.holds.linked
    rw [same] at linked
    rw [linked.header_at]
    rfl
  · intro b taken x lower upper
    apply evolves.kept x ⟨b, taken, _, upper⟩
    simp only [Block.contents, contentsOffset] at lower
    omega
  · intro os' page since actions s₁ run
    -- both lists settle to the list the failed request left
    have first : Settles os m.calls ⟨m, s.live⟩
        ⟨Block.fusion.coalesce blocks, [], Fusion.coalesce_separated blocks⟩ :=
      ⟨_, invariant', Fusion.coalesce_coalesce blocks, (List.append_nil _).symm⟩
    have second : Settles os' s.machine.calls s
        ⟨Block.fusion.coalesce blocks, [], Fusion.coalesce_separated blocks⟩ :=
      ⟨blocks, invariant.other_system page, rfl, (List.append_nil _).symm⟩
    have alike : Alike os os' m.calls s.machine.calls ⟨m, s.live⟩ s := ⟨rfl, _, first, second⟩
    exact alike.later page since run

theorem granting_since_failed {calls : List MmapEvent} {first second : MmapEvent}
    (failed : first.answer = mapFailed) (failed' : second.answer = mapFailed) :
    granting.since calls = granting.since (calls ++ [first, second]) := by
  funext more call
  simp only [Platform.since, granting, regions_append, regions_cons, if_pos failed, if_pos failed',
    regions_nil, List.append_nil]

/-- Almost all of the address space is asked for, in vain. -/
theorem failed_malloc_unobservable_of_huge : ∃ s m,
    session granting 8175 [.malloc 100] = some s ∧
    malloc granting (2 ^ 64 - 2 ^ 20) s.machine = some (null, m) ∧
    ∃ actions actions' s₁ s₂, Run (AdmissibleStep granting) ⟨m, s.live⟩ actions s₁ ∧
      Run (AdmissibleStep granting) s actions' s₂ ∧
      actions.filterMap Action.request = [.malloc 9000, .free 67371025] ∧
      replies Action.request Action.reply actions =
        replies Action.request Action.reply actions' := by
  have refused : ((session granting 8175 [.malloc 100]).bind fun s =>
      (malloc granting (2 ^ 64 - 2 ^ 20) s.machine).bind fun reply =>
        if reply.1 = null then
          (performAll granting ⟨reply.2, s.live⟩ [.malloc 9000, .free 67371025]).bind fun _ =>
            (performAll granting s [.malloc 9000, .free 67371025]).map fun _ => ()
        else none) = some () := by
    decide +kernel
  obtain ⟨s, started, rest⟩ := Option.bind_eq_some_iff.mp refused
  obtain ⟨⟨pointer, m⟩, returned, rest⟩ := Option.bind_eq_some_iff.mp rest
  simp only at rest
  split at rest
  · rename_i failed
    subst failed
    obtain ⟨s₁, performed, rest⟩ := Option.bind_eq_some_iff.mp rest
    obtain ⟨s₂, performed', _⟩ := Option.map_eq_some_iff.mp rest
    obtain ⟨actions, run, requests⟩ := performAll_run (by decide) performed
    obtain ⟨actions', run', requests'⟩ := performAll_run (by decide) performed'
    have reachable := session_reachable (by decide) (by decide) started
    obtain ⟨⟨first, second, calls, failed, failed'⟩, _, later⟩ :=
      failed_malloc_unobservable reachable returned
    have alike : granting.since s.machine.calls = granting.since m.calls :=
      calls ▸ granting_since_failed failed failed'
    obtain ⟨_, agree⟩ := later granting rfl alike actions s₁ run
    obtain ⟨same, _⟩ := agree actions' s₂ run' (requests.trans requests'.symm)
    exact ⟨s, m, started, returned, actions, actions', s₁, s₂, run, run', requests, same⟩
  · cases rest

end MemoryAllocator
