import Mathlib.Data.List.Basic
import Mathlib.Data.List.Nodup
import Mathlib.Data.List.Pairwise
import Mathlib.Data.List.Infix
import Mathlib.Data.List.Perm.Subperm

/-! Spans of addresses and the cells they cover. A list of spans tiles memory when its
footprint, the concatenation of the cells of its members, repeats no address. -/
namespace Foundation

/-- The addresses of `length` consecutive cells, the lowest first. -/
def cells (start length : Nat) : List Nat := List.range' start length

@[simp] theorem mem_cells {start length x : Nat} :
    x ∈ cells start length ↔ start ≤ x ∧ x < start + length := by
  simp [cells, List.mem_range'_1]

@[simp] theorem cells_length (start length : Nat) : (cells start length).length = length := by
  simp [cells]

theorem cells_append (start m n : Nat) :
    cells start m ++ cells (start + m) n = cells start (m + n) := by
  simp [cells]

theorem cells_nodup (start length : Nat) : (cells start length).Nodup := List.nodup_range'

structure Span where
  start : Nat
  length : Nat
  deriving DecidableEq, Repr

namespace Span

def stop (s : Span) : Nat := s.start + s.length

def cells (s : Span) : List Nat := Foundation.cells s.start s.length

/-- Two spans share no cell and neither lies inside the other. -/
def Apart (s t : Span) : Prop := s.stop ≤ t.start ∨ t.stop ≤ s.start

theorem Apart.symm {s t : Span} (apart : s.Apart t) : t.Apart s := Or.symm apart

theorem apart_of_disjoint {s t : Span} (sPos : 0 < s.length) (tPos : 0 < t.length)
    (disjoint : s.cells.Disjoint t.cells) : s.Apart t := by
  by_contra overlap
  simp only [Apart, stop, not_or, not_le] at overlap
  -- the larger of the two starts is a cell of both spans
  refine disjoint (a := max s.start t.start) ?_ ?_
  · simp only [cells, mem_cells]
    omega
  · simp only [cells, mem_cells]
    omega

theorem disjoint_of_apart {s t : Span} (apart : s.Apart t) : s.cells.Disjoint t.cells := by
  intro x inS inT
  simp only [cells, mem_cells] at inS inT
  simp only [Apart, stop] at apart
  omega

end Span

/-- The cells of every span, span after span. -/
def footprint (spans : List Span) : List Nat := spans.flatMap Span.cells

@[simp] theorem footprint_nil : footprint [] = [] := rfl

@[simp] theorem footprint_cons (s : Span) (spans : List Span) :
    footprint (s :: spans) = s.cells ++ footprint spans := rfl

@[simp] theorem footprint_append (xs ys : List Span) :
    footprint (xs ++ ys) = footprint xs ++ footprint ys := List.flatMap_append

theorem mem_footprint {spans : List Span} {x : Nat} :
    x ∈ footprint spans ↔ ∃ s ∈ spans, s.start ≤ x ∧ x < s.stop := by
  simp [footprint, Span.cells, Span.stop]

theorem footprint_getElem? {s : Span} {i : Nat} (inside : i < s.length) (rest : List Span) :
    (footprint (s :: rest))[i]? = some (s.start + i) := by
  rw [footprint_cons, Span.cells, List.getElem?_append_left (by rwa [cells_length])]
  simp [cells, inside]

/-- Where one tiling has a longer first span than another, the second begins with two spans
that touch. -/
theorem touching_of_footprint_eq {s t r : Span} {xs ys : List Span} (sPos : 0 < s.length)
    (tPos : 0 < t.length) (longer : s.length < r.length)
    (same : footprint (s :: t :: xs) = footprint (r :: ys)) : t.start = s.stop := by
  have first := footprint_getElem? sPos (t :: xs)
  rw [same, footprint_getElem? (sPos.trans longer)] at first
  have second : (footprint (s :: t :: xs))[s.length]? = some (t.start + 0) := by
    rw [footprint_cons, List.getElem?_append_right (by rw [Span.cells, cells_length]), Span.cells,
      cells_length, Nat.sub_self]
    exact footprint_getElem? tPos xs
  rw [same, footprint_getElem? longer] at second
  simp only [Option.some.injEq] at first second
  simp only [Span.stop]
  omega

/-- Two tilings of the same cells end at the same address. -/
theorem stop_eq_of_footprint_eq {xs ys : List Span} {s t : Span} (sPos : 0 < s.length)
    (tPos : 0 < t.length) (same : footprint (xs ++ [s]) = footprint (ys ++ [t])) :
    s.stop = t.stop := by
  have last : ∀ (zs : List Span) (r : Span), 0 < r.length →
      (footprint (zs ++ [r])).getLast? = some (r.stop - 1) := by
    intro zs r positive
    have nonempty : Foundation.cells r.start r.length ≠ [] := by
      rw [← List.length_pos_iff_ne_nil, cells_length]
      exact positive
    rw [footprint_append, footprint_cons, footprint_nil, List.append_nil, Span.cells,
      List.getLast?_append_of_ne_nil _ nonempty]
    simp only [Foundation.cells, List.getLast?_range', Span.stop]
    split
    · omega
    · exact congrArg some (by omega)
  have ends := (last xs s sPos).symm.trans ((congrArg List.getLast? same).trans (last ys t tPos))
  have equal := Option.some.inj ends
  simp only [Span.stop] at equal ⊢
  omega

theorem pairwise_apart_of_nodup {spans : List Span} (positive : ∀ s ∈ spans, 0 < s.length)
    (nodup : (footprint spans).Nodup) : spans.Pairwise Span.Apart := by
  have disjoint := (List.nodup_flatMap.mp nodup).2
  apply disjoint.imp_of_mem
  intro s t inS inT apart
  exact Span.apart_of_disjoint (positive s inS) (positive t inT) apart

/-- Cells a machine of the given address range can own: no address twice, address zero
and the last address never among them. -/
structure Room (limit : Nat) (owned : List Nat) : Prop where
  nodup : owned.Nodup
  positive : ∀ x ∈ owned, 0 < x
  bounded : ∀ x ∈ owned, x + 1 < limit

theorem Room.nil (limit : Nat) : Room limit [] := ⟨List.nodup_nil, by simp, by simp⟩

theorem Room.append_span {limit : Nat} {owned : List Nat} {s : Span} (room : Room limit owned)
    (positive : 0 < s.start) (bounded : s.stop < limit) (fresh : owned.Disjoint s.cells) :
    Room limit (owned ++ s.cells) := by
  refine ⟨List.nodup_append'.mpr ⟨room.nodup, cells_nodup _ _, fresh⟩, ?_, ?_⟩
  · intro x member
    rcases List.mem_append.mp member with old | new
    · exact room.positive x old
    · simp only [Span.cells, mem_cells] at new
      omega
  · intro x member
    rcases List.mem_append.mp member with old | new
    · exact room.bounded x old
    · simp only [Span.cells, mem_cells] at new
      simp only [Span.stop] at bounded
      omega

theorem Room.span_start_pos {limit : Nat} {spans : List Span} (room : Room limit (footprint spans))
    {s : Span} (member : s ∈ spans) (nonempty : 0 < s.length) : 0 < s.start := by
  refine room.positive s.start (mem_footprint.mpr ⟨s, member, le_refl _, ?_⟩)
  simp only [Span.stop]
  omega

theorem Room.span_stop_lt {limit : Nat} {spans : List Span} (room : Room limit (footprint spans))
    {s : Span} (member : s ∈ spans) (nonempty : 0 < s.length) : s.stop < limit := by
  have inside : s.stop - 1 ∈ footprint spans := by
    refine mem_footprint.mpr ⟨s, member, ?_, ?_⟩ <;> simp only [Span.stop] <;> omega
  have bound := room.bounded _ inside
  simp only [Span.stop] at bound ⊢
  omega

theorem Room.length_lt {limit : Nat} {owned : List Nat} (room : Room limit owned)
    (positive : 0 < limit) : owned.length < limit := by
  have inside : owned ⊆ List.range (limit - 1) := by
    intro x member
    have bound := room.bounded x member
    exact List.mem_range.mpr (by omega)
  have shorter := (room.nodup.subperm inside).length_le
  rw [List.length_range] at shorter
  omega

end Foundation
