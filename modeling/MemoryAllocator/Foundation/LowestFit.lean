import Mathlib.Data.Set.Insert
import Mathlib.Order.Bounds.Basic
import MemoryAllocator.Foundation.Runs
import MemoryAllocator.Foundation.Spans

/-! Lowest fit over a range of addresses. Pieces are taken where they first fit and given back,
and the range is extended when nothing fits; the free addresses alone decide where. -/
namespace Foundation

/-- A range of addresses, and the pieces taken out of it. -/
structure Arena where
  start : Nat
  stop : Nat
  taken : Set Span

namespace Arena

def free (A : Arena) : Set Nat := {x | A.start ≤ x ∧ x < A.stop ∧ ∀ s ∈ A.taken, x ∉ s.cells}

/-- So many addresses are free from here on. -/
def Fits (A : Arena) (size x : Nat) : Prop := ∀ y, x ≤ y → y < x + size → y ∈ A.free

/-- The piece lowest fit takes: of the size asked for if `rest` more addresses are free behind
it, else up to where the free stretch ends. -/
structure Takes (A : Arena) (size rest : Nat) (piece : Span) : Prop where
  nonempty : 0 < size
  lowest : IsLeast {x | A.Fits size x} piece.start
  fits : A.Fits piece.length piece.start
  enough : size ≤ piece.length
  cut : A.Fits (size + rest) piece.start → piece.length = size
  whole : ¬ A.Fits (size + rest) piece.start → piece.stop ∉ A.free

def take (A : Arena) (piece : Span) : Arena := { A with taken := insert piece A.taken }

def give (A : Arena) (piece : Span) : Arena := { A with taken := A.taken \ {piece} }

def extend (A : Arena) (length : Nat) : Arena := { A with stop := A.stop + length }

/-- The pieces lie in the range and apart from one another. -/
structure Sound (A : Arena) : Prop where
  nonempty : ∀ s ∈ A.taken, 0 < s.length
  inside : ∀ s ∈ A.taken, A.start ≤ s.start ∧ s.stop ≤ A.stop
  apart : ∀ s ∈ A.taken, ∀ t ∈ A.taken, s ≠ t → s.Apart t

variable {A : Arena} {size rest : Nat} {piece piece' : Span}

theorem Takes.unique (takes : A.Takes size rest piece) (takes' : A.Takes size rest piece') :
    piece = piece' := by
  have start : piece.start = piece'.start := takes.lowest.unique takes'.lowest
  have length : piece.length = piece'.length := by
    by_cases room : A.Fits (size + rest) piece.start
    · rw [takes.cut room, takes'.cut (start ▸ room)]
    · have ends := takes.whole room
      have ends' := takes'.whole (start ▸ room)
      have fits := takes.fits
      have fits' := takes'.fits
      rw [Span.stop] at ends ends'
      rw [← start] at ends' fits'
      by_contra different
      rcases Nat.lt_or_gt_of_ne different with shorter | longer
      · exact ends (fits' _ (by omega) (by omega))
      · exact ends' (fits _ (by omega) (by omega))
  cases piece
  cases piece'
  simp only at start length
  rw [start, length]

theorem Sound.take (sound : A.Sound) (takes : A.Takes size rest piece) : (A.take piece).Sound := by
  have positive := takes.nonempty.trans_le takes.enough
  have fresh : ∀ s ∈ A.taken, s.Apart piece := by
    intro s member
    have nonempty := sound.nonempty s member
    refine Span.apart_of_disjoint nonempty positive ?_
    intro x there here
    obtain ⟨lower, upper⟩ := mem_cells.mp here
    exact (takes.fits x lower upper).2.2 s member there
  constructor
  · rintro s (rfl | old)
    · exact positive
    · exact sound.nonempty s old
  · rintro s (rfl | old)
    · have first := (takes.fits s.start (le_refl _) (by omega)).1
      have last := (takes.fits (s.start + (s.length - 1)) (by omega) (by omega)).2.1
      simp only [Arena.take, Span.stop]
      omega
    · exact sound.inside s old
  · rintro s (rfl | old) t (rfl | old') different
    · exact absurd rfl different
    · exact (fresh t old').symm
    · exact fresh s old
    · exact sound.apart s old t old' different

theorem Sound.give (sound : A.Sound) (piece : Span) : (A.give piece).Sound := by
  constructor
  · exact fun s member => sound.nonempty s member.1
  · exact fun s member => sound.inside s member.1
  · exact fun s member t member' => sound.apart s member.1 t member'.1

theorem Sound.extend (sound : A.Sound) (length : Nat) : (A.extend length).Sound := by
  constructor
  · exact sound.nonempty
  · intro s member
    obtain ⟨lower, upper⟩ := sound.inside s member
    exact ⟨lower, upper.trans (Nat.le_add_right _ _)⟩
  · exact sound.apart

/-- In a sound arena a piece is known by where it begins. -/
theorem Sound.piece_unique (sound : A.Sound) (member : piece ∈ A.taken)
    (member' : piece' ∈ A.taken) (start : piece.start = piece'.start) : piece = piece' := by
  by_contra different
  have nonempty := sound.nonempty piece member
  have nonempty' := sound.nonempty piece' member'
  have apart := sound.apart piece member piece' member' different
  simp only [Span.Apart, Span.stop] at apart
  omega

end Arena

inductive ArenaEvent where
  | take (size start : Nat)
  | refuse (size : Nat)
  | give (start : Nat)

/-- Nothing else happens to an arena. It is extended, by an amount that depends on the size
asked for, only when no stretch of that size is free. -/
inductive LowestFit (rest : Nat) (growth : Nat → Nat) : Arena → ArenaEvent → Arena → Prop
  | served {A : Arena} {size : Nat} {piece : Span} : A.Takes size rest piece →
      LowestFit rest growth A (.take size piece.start) (A.take piece)
  | grown {A : Arena} {size : Nat} {piece : Span} : (∀ x, ¬ A.Fits size x) →
      (A.extend (growth size)).Takes size rest piece →
      LowestFit rest growth A (.take size piece.start) ((A.extend (growth size)).take piece)
  | refused {A : Arena} {size : Nat} : (∀ x, ¬ A.Fits size x) →
      LowestFit rest growth A (.refuse size) A
  | given {A : Arena} {piece : Span} : piece ∈ A.taken →
      LowestFit rest growth A (.give piece.start) (A.give piece)

namespace LowestFit

variable {rest size start x : Nat} {growth : Nat → Nat} {A B C : Arena} {event : ArenaEvent}

theorem sound (step : LowestFit rest growth A event B) (sound : A.Sound) : B.Sound := by
  cases step with
  | served takes => exact sound.take takes
  | grown _ takes => exact (sound.extend _).take takes
  | refused => exact sound
  | given => exact sound.give _

theorem unique (sound : A.Sound) (step : LowestFit rest growth A event B)
    (step' : LowestFit rest growth A event C) : B = C := by
  generalize same : event = event' at step'
  cases step with
  | served takes =>
      cases step' with
      | served takes' =>
          obtain ⟨rfl, _⟩ := ArenaEvent.take.inj same
          rw [takes.unique takes']
      | grown nowhere _ =>
          obtain ⟨rfl, _⟩ := ArenaEvent.take.inj same
          exact absurd takes.lowest.1 (nowhere _)
      | refused => cases same
      | given => cases same
  | grown nowhere takes =>
      cases step' with
      | served takes' =>
          obtain ⟨rfl, _⟩ := ArenaEvent.take.inj same
          exact absurd takes'.lowest.1 (nowhere _)
      | grown _ takes' =>
          obtain ⟨rfl, _⟩ := ArenaEvent.take.inj same
          rw [takes.unique takes']
      | refused => cases same
      | given => cases same
  | refused =>
      cases step' with
      | refused => rfl
      | served => cases same
      | grown => cases same
      | given => cases same
  | given member =>
      cases step' with
      | given member' => rw [sound.piece_unique member member' (ArenaEvent.give.inj same)]
      | served => cases same
      | grown => cases same
      | refused => cases same

theorem taken (step : LowestFit rest growth A (.take size start) B) (fits : A.Fits size x) :
    ∃ piece, A.Takes size rest piece ∧ piece.start = start ∧ B = A.take piece := by
  generalize same : ArenaEvent.take size start = event at step
  cases step with
  | @served _ piece takes =>
      obtain ⟨rfl, rfl⟩ := ArenaEvent.take.inj same
      exact ⟨piece, takes, rfl, rfl⟩
  | grown nowhere _ =>
      obtain ⟨rfl, _⟩ := ArenaEvent.take.inj same
      exact absurd fits (nowhere x)
  | refused => cases same
  | given => cases same

theorem run_unique {events : List ArenaEvent} (sound : A.Sound)
    (run : Run (LowestFit rest growth) A events B)
    (run' : Run (LowestFit rest growth) A events C) : B = C := by
  induction run with
  | nil A =>
      cases run'
      rfl
  | cons first _ ih =>
      cases run' with
      | cons first' later' =>
          obtain rfl := unique sound first first'
          exact ih (first.sound sound) later'

theorem run_sound {events : List ArenaEvent} (sound : A.Sound)
    (run : Run (LowestFit rest growth) A events B) : B.Sound :=
  run.invariant (fun _ _ _ sound step => step.sound sound) sound

end LowestFit

/-- The free addresses are those from `x` on. -/
structure Arena.Packed (A : Arena) (x : Nat) : Prop where
  lower : A.start ≤ x
  upper : x ≤ A.stop
  free : ∀ y, y ∈ A.free ↔ x ≤ y ∧ y < A.stop

/-- The addresses at which pieces are taken, in order. -/
def ArenaEvent.starts (events : List ArenaEvent) : List Nat :=
  events.filterMap fun event =>
    match event with
    | .take _ start => some start
    | _ => none

namespace Arena.Packed

variable {A B : Arena} {x size rest : Nat} {piece : Span} {growth : Nat → Nat}

theorem take (packed : A.Packed x) (takes : A.Takes size rest piece) :
    piece.start = x ∧ (A.take piece).Packed piece.stop := by
  have positive := takes.nonempty.trans_le takes.enough
  have first := (packed.free piece.start).mp (takes.fits _ (le_refl _) (by omega))
  have last := (packed.free (piece.start + (piece.length - 1))).mp
    (takes.fits _ (by omega) (by omega))
  have start : piece.start = x := by
    refine Nat.le_antisymm (takes.lowest.2 fun y lower upper => ?_) first.1
    have enough := takes.enough
    exact (packed.free y).mpr ⟨lower, by omega⟩
  refine ⟨start, ?_, ?_, fun y => ?_⟩
  · have lower := packed.lower
    simp only [Arena.take, Span.stop]
    omega
  · simp only [Arena.take, Span.stop]
    omega
  · have outside : y ∈ (A.take piece).free ↔ y ∈ A.free ∧ y ∉ piece.cells := by
      constructor
      · rintro ⟨lower, upper, apart⟩
        exact ⟨⟨lower, upper, fun s member => apart s (.inr member)⟩, apart piece (.inl rfl)⟩
      · rintro ⟨⟨lower, upper, apart⟩, other⟩
        refine ⟨lower, upper, ?_⟩
        rintro s (rfl | member)
        · exact other
        · exact apart s member
    rw [outside, packed.free]
    simp only [Span.cells, mem_cells, Arena.take, Span.stop, start]
    omega

theorem stop_eq (packed : A.Packed x) (takes : A.Takes size rest piece) :
    piece.stop = if x + (size + rest) ≤ A.stop then x + size else A.stop := by
  have start := (packed.take takes).1
  have nonempty := takes.nonempty
  split
  · rename_i room
    have length := takes.cut fun y lower upper =>
      (packed.free y).mpr ⟨start ▸ lower, by omega⟩
    rw [Span.stop, start, length]
  · rename_i short
    have enough := takes.enough
    have last := (packed.free (piece.start + (piece.length - 1))).mp
      (takes.fits _ (by omega) (by omega))
    have ends := takes.whole fun fits => short (by
      have behind := (packed.free (piece.start + (size + rest - 1))).mp
        (fits _ (by omega) (by omega))
      omega)
    rw [packed.free] at ends
    simp only [Span.stop] at ends ⊢
    omega

theorem extend (packed : A.Packed x) (sound : A.Sound) (length : Nat) :
    (A.extend length).Packed x := by
  refine ⟨packed.lower, packed.upper.trans (Nat.le_add_right _ _), fun y => ?_⟩
  constructor
  · rintro ⟨lower, upper, apart⟩
    refine ⟨?_, upper⟩
    by_cases below : y < A.stop
    · exact ((packed.free y).mp ⟨lower, below, apart⟩).1
    · exact packed.upper.trans (Nat.le_of_not_lt below)
  · rintro ⟨lower, upper⟩
    refine ⟨packed.lower.trans lower, upper, fun s member within => ?_⟩
    by_cases below : y < A.stop
    · exact ((packed.free y).mpr ⟨lower, below⟩).2.2 s member within
    · have inside := (sound.inside s member).2
      have ends := (mem_cells.mp within).2
      simp only [Span.stop] at inside
      omega

theorem step {event : ArenaEvent} (packed : A.Packed x) (sound : A.Sound)
    (kept : ∀ start, event ≠ .give start) (step : LowestFit rest growth A event B) :
    ∃ x', B.Packed x' ∧ x ≤ x' ∧ ∀ y ∈ ArenaEvent.starts [event], y = x ∧ y < x' := by
  have taken : ∀ {C : Arena} {size : Nat} {piece : Span}, C.Packed x →
      C.Takes size rest piece → ∃ x', (C.take piece).Packed x' ∧ x ≤ x' ∧
        ∀ y ∈ ArenaEvent.starts [.take size piece.start], y = x ∧ y < x' := by
    intro C size piece packed takes
    obtain ⟨start, packed'⟩ := packed.take takes
    have positive := takes.nonempty.trans_le takes.enough
    refine ⟨_, packed', ?_, fun y member => ?_⟩
    · simp only [Span.stop]
      omega
    · obtain rfl := List.mem_singleton.mp member
      simp only [Span.stop]
      omega
  cases step with
  | served takes => exact taken packed takes
  | grown _ takes => exact taken (packed.extend sound _) takes
  | refused => exact ⟨x, packed, le_refl x, by simp [ArenaEvent.starts]⟩
  | given => exact absurd rfl (kept _)

/-- As long as nothing is given back, pieces are taken upwards and leave no hole. -/
theorem run {events : List ArenaEvent} (packed : A.Packed x) (sound : A.Sound)
    (kept : ∀ start, .give start ∉ events) (run : Run (LowestFit rest growth) A events B) :
    ∃ x', B.Packed x' ∧ x ≤ x' ∧ (∀ y ∈ ArenaEvent.starts events, x ≤ y) ∧
      (ArenaEvent.starts events).Pairwise (· < ·) := by
  induction run generalizing x with
  | nil A => exact ⟨x, packed, le_refl x, by simp [ArenaEvent.starts], .nil⟩
  | @cons A A₁ B event events first _ ih =>
      have quiet : ∀ start, event ≠ .give start := by
        rintro start rfl
        exact kept start List.mem_cons_self
      obtain ⟨x₁, packed₁, between, here⟩ := packed.step sound quiet first
      obtain ⟨x', packed', beyond, above, ascending⟩ := ih packed₁ (first.sound sound)
        fun start member => kept start (List.mem_cons_of_mem _ member)
      have parts : ArenaEvent.starts (event :: events) =
          ArenaEvent.starts [event] ++ ArenaEvent.starts events :=
        List.filterMap_append (l := [event])
      refine ⟨x', packed', between.trans beyond, ?_, ?_⟩
      · intro y member
        rw [parts] at member
        rcases List.mem_append.mp member with now | later
        · exact (here y now).1.ge
        · exact between.trans (above y later)
      · rw [parts]
        refine List.pairwise_append.mpr ⟨?_, ascending, ?_⟩
        · cases event <;> simp [ArenaEvent.starts]
        · exact fun y now z later => (here y now).2.trans_le (above z later)

end Arena.Packed

end Foundation
