import MemoryAllocator.Refinement
import MemoryAllocator.Foundation.Text

/-! The printed heap, `mem_debug.c`: a heading and one row for each block of the list. What is
printed to the file is returned as text. -/
namespace MemoryAllocator
open Foundation

def debugFirstBytes : Nat := 4

/-- `%p`, as glibc prints it. -/
def pointerText (address : Nat) : Text :=
  if address = null then ['(', 'n', 'i', 'l', ')'] else '0' :: 'x' :: Nat.toDigits 16 address

def sizeText (size : Nat) : Text := Nat.toDigits 10 size

def byteText (byte : UInt8) : Text := (Nat.toDigits 16 byte.toNat).map Char.toUpper

def statusText (isFree : Bool) : Text :=
  if isFree then ['f', 'r', 'e', 'e'] else ['t', 'a', 'k', 'e', 'n']

/-- The format of a row, `"%10p %10zu %8s   "`, then the contents shown and a newline. -/
def rowText (addr capacity : Nat) (isFree : Bool) (shown : Text) : Text :=
  padLeft 10 (pointerText addr) ++ ' ' :: (padLeft 10 (sizeText capacity) ++
    ' ' :: (padLeft 8 (statusText isFree) ++ ' ' :: ' ' :: ' ' :: (shown ++ ['\n'])))

/-- A byte of the contents; headers are read as headers. -/
def loadByte (address : Nat) : Exec UInt8 := fun m => some (m.memory address, m)

/-- The loop over the first bytes of the contents, with the rounds that `debugFirstBytes`
leaves it. -/
def debugContents (addr : Nat) : Nat → Nat → Exec Text
  | 0, _ => return []
  | left + 1, i => do
      if i < (← loadCapacity addr).bytes then
        let byte ← loadByte ((contents addr + i) % 2 ^ 64)
        return byteText byte ++ (← debugContents addr left (i + 1))
      else
        return []

def debugStructInfo (addr : Nat) : Exec Text := do
  let capacity ← loadCapacity addr
  let isFree ← loadIsFree addr
  let shown ← debugContents addr debugFirstBytes 0
  return rowText addr capacity.bytes isFree shown

def debugLoop : Nat → Nat → Exec Text
  | 0, _ => fun _ => none
  | rounds + 1, header => do
      if header = null then
        return []
      else
        let row ← debugStructInfo header
        return row ++ (← debugLoop rounds (← loadNext header))

/-- `" --- Heap ---\n"` and the names of the columns. -/
def debugHeading : Text :=
  [' ', '-', '-', '-', ' ', 'H', 'e', 'a', 'p', ' ', '-', '-', '-', '\n'] ++
    (padLeft 10 ['s', 't', 'a', 'r', 't'] ++ ' ' ::
      (padLeft 10 ['c', 'a', 'p', 'a', 'c', 'i', 't', 'y'] ++ ' ' ::
        (padLeft 8 ['s', 't', 'a', 't', 'u', 's'] ++ ' ' ::
          (padLeft 10 ['c', 'o', 'n', 't', 'e', 'n', 't', 's'] ++ ['\n']))))

def debugHeap (ptr : Nat) : Exec Text := do
  return debugHeading ++ (← debugLoop loopBound ptr)

@[simp] theorem ensures_loadByte {m : Machine} {address : Nat} {Q : UInt8 → Machine → Prop} :
    Ensures (loadByte address) m Q ↔ Q (m.memory address) m :=
  ensures_of_returns rfl

/-- The machine is as it was, but that some of these headers have been read. -/
structure Inspects (m m' : Machine) (headers : List Nat) : Prop where
  memory : m'.memory = m.memory
  calls : m'.calls = m.calls
  accesses : ∃ reads, m'.accesses = m.accesses ++ reads ∧
    ∀ a ∈ reads, a.kind = .read ∧ a.header ∈ headers

namespace Inspects

variable {m m' m'' : Machine} {headers wider : List Nat}

theorem refl (m : Machine) (headers : List Nat) : Inspects m m headers :=
  ⟨rfl, rfl, [], (List.append_nil _).symm, by simp⟩

theorem read {block : Nat} (member : block ∈ headers) :
    Inspects m (m.touched .read block) headers :=
  ⟨rfl, rfl, [⟨.read, block, m.memory⟩], rfl, by simpa using member⟩

theorem trans (first : Inspects m m' headers) (second : Inspects m' m'' headers) :
    Inspects m m'' headers := by
  obtain ⟨reads, grown, only⟩ := first.accesses
  obtain ⟨reads', grown', only'⟩ := second.accesses
  refine ⟨second.memory.trans first.memory, second.calls.trans first.calls, reads ++ reads', ?_, ?_⟩
  · rw [grown', grown, List.append_assoc]
  · intro a member
    rcases List.mem_append.mp member with early | late
    · exact only a early
    · exact only' a late

theorem mono (inspects : Inspects m m' headers) (subset : headers ⊆ wider) :
    Inspects m m' wider := by
  obtain ⟨reads, grown, only⟩ := inspects.accesses
  exact ⟨inspects.memory, inspects.calls, reads, grown,
    fun a member => ⟨(only a member).1, subset (only a member).2⟩⟩

end Inspects

/-- What a row shows of the contents of a block. -/
def Block.shown (memory : Memory) (b : Block) : Text :=
  (readBytes memory b.contents (min debugFirstBytes b.capacity)).flatMap byteText

def Block.row (memory : Memory) (b : Block) : Text :=
  rowText b.addr b.capacity b.isFree (b.shown memory)

section
variable {m : Machine} {pre post : List Block} {b : Block}

theorem debugContents_prints (capacity : Nat) {addr left i : Nat}
    (marked : (header m.memory addr).capacity = ⟨capacity⟩)
    (fits : addr + contentsOffset + capacity < 2 ^ 64) :
    Ensures (debugContents addr left i) m fun text m' =>
      text = (readBytes m.memory (addr + contentsOffset + i)
        (min left (capacity - i))).flatMap byteText ∧ Inspects m m' [addr] := by
  induction left generalizing i m with
  | zero =>
      simp only [debugContents, ensures_pure]
      exact ⟨by simp [readBytes], .refl m [addr]⟩
  | succ left ih =>
      simp only [debugContents, ensures_bind, ensures_loadCapacity, marked]
      split
      · rename_i inside
        have read : Inspects m (m.touched .read addr) [addr] := .read (List.mem_singleton_self addr)
        have place : (contents addr + i) % 2 ^ 64 = addr + contentsOffset + i := by
          simp only [contents]
          omega
        have one : min (left + 1) (capacity - i) = min left (capacity - (i + 1)) + 1 := by omega
        simp only [ensures_bind, ensures_loadByte, ensures_pure, place]
        refine (ih (m := m.touched .read addr) marked).mono ?_
        rintro text m' ⟨rfl, inspects⟩
        refine ⟨?_, read.trans inspects⟩
        rw [one]
        rfl
      · rename_i outside
        have none : min (left + 1) (capacity - i) = 0 := by omega
        simp only [ensures_pure, none]
        exact ⟨by simp [readBytes], .read (List.mem_singleton_self addr)⟩

theorem debugStructInfo_prints (holds : Holds m.memory (pre ++ b :: post)) :
    Ensures (debugStructInfo b.addr) m fun text m' =>
      text = b.row m.memory ∧ Inspects m m' [b.addr] := by
  have marked := holds.header_at
  have bound := holds.wellFormed.stop_lt (b := b) (by simp)
  have fits : b.addr + contentsOffset + b.capacity < 2 ^ 64 := by
    simp only [Block.stop, Block.size] at bound
    omega
  have read : ∀ m, Inspects m (m.touched .read b.addr) [b.addr] :=
    fun m => .read (List.mem_singleton_self b.addr)
  simp only [debugStructInfo, ensures_bind, ensures_loadCapacity, ensures_loadIsFree,
    touched_memory, ensures_pure, marked]
  refine (debugContents_prints b.capacity ?_ fits).mono ?_
  · simp only [touched_memory, marked]
  · rintro text m' ⟨rfl, inspects⟩
    exact ⟨rfl, ((read m).trans (read _)).trans inspects⟩

theorem debugLoop_prints {rounds : Nat} (holds : Holds m.memory (pre ++ post))
    (enough : post.length < rounds) :
    Ensures (debugLoop rounds (headAddr post null)) m fun text m' =>
      text = post.flatMap (Block.row m.memory) ∧ Inspects m m' (post.map Block.addr) := by
  induction post generalizing pre m rounds with
  | nil =>
      obtain ⟨rounds, rfl⟩ := Nat.exists_eq_succ_of_ne_zero (Nat.ne_of_gt enough)
      simp only [debugLoop, headAddr_nil, if_true, ensures_pure]
      exact ⟨rfl, .refl m _⟩
  | cons b post ih =>
      obtain ⟨rounds, rfl⟩ :=
        Nat.exists_eq_succ_of_ne_zero (Nat.ne_of_gt (Nat.zero_lt_of_lt enough))
      have nonnull := holds.wellFormed.nonnull (b := b) (by simp)
      have first : [b.addr] ⊆ (b :: post).map Block.addr := by simp
      have later : post.map Block.addr ⊆ (b :: post).map Block.addr := by simp
      rw [headAddr_cons]
      simp only [debugLoop, if_neg nonnull, ensures_bind, ensures_loadNext, ensures_pure]
      refine (debugStructInfo_prints holds).mono ?_
      rintro row m₁ ⟨rfl, inspects⟩
      have next := holds.header_at
      have front : pre ++ b :: post = (pre ++ [b]) ++ post := by simp
      have there : Holds (m₁.touched .read b.addr).memory ((pre ++ [b]) ++ post) := by
        rw [touched_memory, inspects.memory, ← front]
        exact holds
      rw [inspects.memory, next]
      simp only [List.length_cons] at enough
      refine (ih there (by omega)).mono ?_
      rintro text m₂ ⟨rfl, inspects'⟩
      rw [touched_memory, inspects.memory]
      refine ⟨rfl, (inspects.mono first).trans (.trans (.read ?_) (inspects'.mono later))⟩
      exact List.mem_cons_self

theorem debugHeap_prints (holds : Holds m.memory (pre ++ post)) :
    Ensures (debugHeap (headAddr post null)) m fun text m' =>
      text = debugHeading ++ post.flatMap (Block.row m.memory) ∧
        Inspects m m' (post.map Block.addr) := by
  have total := holds.wellFormed.length_lt
  have enough : post.length < loopBound := by
    simp only [List.length_append, loopBound] at total ⊢
    omega
  simp only [debugHeap, ensures_bind, ensures_pure]
  refine (debugLoop_prints holds enough).mono ?_
  rintro text m' ⟨rfl, inspects⟩
  exact ⟨rfl, inspects⟩

end

theorem pointerText_inj {a b : Nat} (same : pointerText a = pointerText b) : a = b := by
  have other : ∀ digits : Text, ['(', 'n', 'i', 'l', ')'] ≠ '0' :: 'x' :: digits := by
    intro digits equal
    exact absurd (List.cons.inj equal).1 (by decide)
  unfold pointerText at same
  split at same
  · rename_i aNull
    split at same
    · rename_i bNull
      exact aNull.trans bNull.symm
    · exact absurd same (other _)
  · split at same
    · exact absurd same.symm (other _)
    · have digits := (List.cons.inj (List.cons.inj same).2).2
      exact toDigits_inj (by decide) (by decide) digits

theorem word_pointerText (address : Nat) : Word (pointerText address) := by
  unfold pointerText
  split
  · exact ⟨by decide, by decide⟩
  · have digits : Word (Nat.toDigits 16 address) := word_toDigits (by decide) (by decide)
    refine ⟨by simp, ?_⟩
    simpa using digits.noBlank

theorem word_sizeText (size : Nat) : Word (sizeText size) := word_toDigits (by decide) (by decide)

theorem word_statusText (isFree : Bool) : Word (statusText isFree) := by
  cases isFree with
  | false => exact ⟨by decide, by decide⟩
  | true => exact ⟨by decide, by decide⟩

theorem statusText_inj {a b : Bool} (same : statusText a = statusText b) : a = b := by
  revert same
  cases a <;> cases b <;> decide

theorem byteText_line (byte : UInt8) : '\n' ∉ byteText byte := by
  intro broken
  obtain ⟨c, digit, same⟩ := List.mem_map.mp broken
  obtain ⟨d, bound, rfl⟩ := mem_toDigits (by decide) digit
  have none : ∀ d < 16, d.digitChar.toUpper ≠ '\n' := by decide
  exact none d bound same

theorem Block.shown_line (memory : Memory) (b : Block) : '\n' ∉ b.shown memory := by
  intro broken
  obtain ⟨byte, _, inside⟩ := List.mem_flatMap.mp broken
  exact byteText_line byte inside

theorem rowText_tells : Tells (fun r : Block × Text => rowText r.1.addr r.1.capacity r.1.isFree r.2)
    id (fun r => '\n' ∉ r.2) := by
  rintro ⟨⟨addr, capacity, isFree⟩, shown⟩ ⟨⟨addr', capacity', isFree'⟩, shown'⟩ r r' line line'
    same
  simp only [rowText, List.append_assoc, List.cons_append] at same
  obtain ⟨sameAddr, same⟩ := padLeft_inj (word_pointerText addr) (word_pointerText addr') same
  obtain ⟨sameSize, same⟩ := padLeft_inj (word_sizeText capacity) (word_sizeText capacity') same
  obtain ⟨sameMark, same⟩ := padLeft_inj (word_statusText isFree) (word_statusText isFree') same
  have same := (List.cons.inj (List.cons.inj same).2).2
  simp only [List.nil_append] at same
  obtain ⟨sameShown, rest⟩ := before_inj line line' same
  obtain rfl := pointerText_inj sameAddr
  obtain rfl := toDigits_inj (by decide) (by decide) sameSize
  obtain rfl := statusText_inj sameMark
  obtain rfl : shown = shown' := sameShown
  exact ⟨rfl, rest⟩

theorem rowText_ne_nil (addr capacity : Nat) (isFree : Bool) (shown : Text) :
    rowText addr capacity isFree shown ≠ [] := by
  simp [rowText]

theorem rows_eq_iff {memory memory' : Memory} {l l' : List Block} :
    l.flatMap (Block.row memory) = l'.flatMap (Block.row memory') ↔
      l = l' ∧ ∀ b ∈ l, b.shown memory' = b.shown memory := by
  have pairs : ∀ (memory : Memory) (l : List Block), l.flatMap (Block.row memory) =
      (l.map fun b => (b, b.shown memory)).flatMap
        fun r => rowText r.1.addr r.1.capacity r.1.isFree r.2 := by
    intro memory l
    rw [List.flatMap_map]
    rfl
  have lines : ∀ (memory : Memory) (l : List Block),
      ∀ r ∈ l.map fun b => (b, b.shown memory), '\n' ∉ r.2 := by
    intro memory l r member
    obtain ⟨b, _, rfl⟩ := List.mem_map.mp member
    exact b.shown_line memory
  constructor
  · intro same
    rw [pairs, pairs] at same
    have keys := rowText_tells.list (fun r => rowText_ne_nil _ _ _ _) (lines memory l)
      (lines memory' l') same
    simp only [List.map_id_fun, id_eq] at keys
    have lists := congrArg (List.map Prod.fst) keys
    simp only [List.map_map, Function.comp_def, List.map_id'] at lists
    subst lists
    refine ⟨rfl, fun b member => ?_⟩
    exact (Prod.mk.inj (List.map_inj_left.mp keys b member)).2.symm
  · rintro ⟨rfl, same⟩
    apply List.flatMap_congr
    intro b member
    rw [Block.row, Block.row, same b member]

/-- On every reachable heap `debug_heap` ends, from any block of the list on; it prints one row
for each block from there, in list order, reads no header of another block, and changes nothing. -/
theorem debug_heap_exact {os : Platform} {s : System} (reachable : Reachable os s) :
    ∃ blocks, Chain s.machine.memory heapStart blocks ∧ ∀ pre post, blocks = pre ++ post →
      Ensures (debugHeap (headAddr post null)) s.machine fun text m' =>
        text = debugHeading ++ post.flatMap (Block.row s.machine.memory) ∧
          Inspects s.machine m' (post.map Block.addr) := by
  obtain ⟨blocks, invariant⟩ := reachable.invariant
  refine ⟨blocks, invariant.heap.chain, ?_⟩
  rintro pre post rfl
  exact debugHeap_prints invariant.heap.holds

theorem debug_heap_exact_of_three : ∃ s blocks,
    session granting 8175 sampleRequests = some s ∧ Chain s.machine.memory heapStart blocks ∧
    Ensures (debugHeap heapStart) s.machine fun text m' =>
      text = debugHeading ++ blocks.flatMap (Block.row s.machine.memory) ∧
        Inspects s.machine m' (blocks.map Block.addr) := by
  obtain ⟨s, performed, _⟩ := sample_exists
  have reachable := session_reachable (by decide) (by decide) performed
  obtain ⟨blocks, chain, prints⟩ := debug_heap_exact reachable
  have whole := prints [] blocks rfl
  rw [chain.start] at whole
  exact ⟨s, blocks, performed, chain, whole⟩

example : String.ofList (rowText heapStart 100 false ['7', '0', '0', '0']) =
    " 0x4040000        100    taken   7000\n" := by
  decide

/-- The printed heap is a full account of the allocator: two heaps print the same text exactly
when their lists are the same and print the same contents, and then the same requests get the
same replies wherever `mmap` answers the same. -/
theorem debug_heap_tells {os os' : Platform} {s t : System} {text text' : Text} {m m' : Machine}
    (reachable : Reachable os s) (reachable' : Reachable os' t)
    (printed : debugHeap heapStart s.machine = some (text, m))
    (printed' : debugHeap heapStart t.machine = some (text', m')) :
    (text = text' ↔ ∃ blocks, Chain s.machine.memory heapStart blocks ∧
      Chain t.machine.memory heapStart blocks ∧
      ∀ b ∈ blocks, b.shown t.machine.memory = b.shown s.machine.memory) ∧
    (text = text' → os'.pageSize = os.pageSize →
      os'.since t.machine.calls = os.since s.machine.calls →
      ∀ actions actions' s' t', Run (AdmissibleStep os) s actions s' →
        Run (AdmissibleStep os') t actions' t' →
        actions.filterMap Action.request = actions'.filterMap Action.request →
        replies Action.request Action.reply actions =
          replies Action.request Action.reply actions') := by
  obtain ⟨blocks, invariant⟩ := reachable.invariant
  obtain ⟨blocks', invariant'⟩ := reachable'.invariant
  have start := invariant.heap.start
  have start' := invariant'.heap.start
  have whole : Holds s.machine.memory ([] ++ blocks) := invariant.heap.holds
  have whole' : Holds t.machine.memory ([] ++ blocks') := invariant'.heap.holds
  have rows := debugHeap_prints whole
  have rows' := debugHeap_prints whole'
  rw [start] at rows
  rw [start'] at rows'
  obtain ⟨rfl, _⟩ := rows.of_returns printed
  obtain ⟨rfl, _⟩ := rows'.of_returns printed'
  rw [List.append_right_inj, rows_eq_iff]
  constructor
  · constructor
    · rintro ⟨rfl, same⟩
      exact ⟨blocks, invariant.heap.chain, invariant'.heap.chain, same⟩
    · rintro ⟨l, chain, chain', same⟩
      obtain rfl := invariant.heap.unique chain
      exact ⟨invariant'.heap.unique chain', same⟩
  · rintro ⟨rfl, _⟩ page since actions actions' s' t' run run' requests
    -- both runs follow the list allocator from the list that was printed
    have served := (represents_follows os s.machine.calls).run (Run.safe run) (t := ⟨blocks, []⟩)
      ⟨invariant, (List.append_nil _).symm⟩
    have served' := (represents_follows os' t.machine.calls).run (Run.safe run')
      (t := ⟨blocks, []⟩) ⟨invariant', (List.append_nil _).symm⟩
    rw [page, since, ← requests] at served'
    exact served.1.trans served'.1.symm

/-- Two fresh heaps, in memories of which no byte is the same. -/
theorem debug_heap_tells_of_fresh : ∃ s t blocks,
    session granting 8175 [] = some s ∧ sessionIn (fun _ => 255) granting 8175 [] = some t ∧
    Chain s.machine.memory heapStart blocks ∧ Chain t.machine.memory heapStart blocks := by
  have printed : ((session granting 8175 []).bind fun s =>
        (sessionIn (fun _ => 255) granting 8175 []).bind fun t =>
          (debugHeap heapStart s.machine).bind fun p =>
            (debugHeap heapStart t.machine).map fun q => decide (p.1 = q.1)) = some true := by
    decide +kernel
  obtain ⟨s, first, printed⟩ := Option.bind_eq_some_iff.mp printed
  obtain ⟨t, second, printed⟩ := Option.bind_eq_some_iff.mp printed
  obtain ⟨⟨text, m⟩, shown, printed⟩ := Option.bind_eq_some_iff.mp printed
  obtain ⟨⟨text', m'⟩, shown', same⟩ := Option.map_eq_some_iff.mp printed
  have reachable := session_reachable (by decide) (by decide) first
  obtain ⟨n, actions, returned, run, _⟩ := sessionIn_run (by decide) second
  have reachable' : Reachable granting t := ⟨_, actions, .init (by decide) returned, run⟩
  obtain ⟨blocks, chain, chain', _⟩ :=
    (debug_heap_tells reachable reachable' shown shown').1.mp (of_decide_eq_true same)
  exact ⟨s, t, blocks, first, second, chain, chain'⟩

end MemoryAllocator
