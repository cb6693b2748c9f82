import Mathlib.Data.List.Chain
import Mathlib.Data.Nat.ModEq
import MemoryAllocator.Foundation.Spans

/-! Tilings of the same cells. Where a tiling does not go on from one piece to the next, so do
all the others; and what lies between its walls is determined by the cells, if the pieces there
never touch. -/
namespace Foundation

section
variable {α : Type} {span : α → Span} {wall : α → Bool}

/-- Next to one another, two pieces that are no walls do not touch. -/
def Gapped (span : α → Span) (wall : α → Bool) (l : List α) : Prop :=
  l.IsChain fun a b => wall a = false → wall b = false → (span b).start ≠ (span a).stop

theorem start_not_mem {a b : α} {l : List α} (positive : ∀ a, 0 < (span a).length)
    (nodup : (footprint ((b :: l).map span)).Nodup) (member : a ∈ l) :
    ¬ ((span b).start ≤ (span a).start ∧ (span a).start < (span b).stop) := by
  rintro ⟨lower, upper⟩
  rw [List.map_cons, footprint_cons] at nodup
  have disjoint := (List.nodup_append'.mp nodup).2.2
  have here : (span a).start ∈ (span b).cells := mem_cells.mpr ⟨lower, upper⟩
  have there : (span a).start ∈ footprint (l.map span) := by
    have nonempty := positive a
    refine mem_footprint.mpr ⟨span a, List.mem_map_of_mem member, le_refl _, ?_⟩
    simp only [Span.stop]
    omega
  exact disjoint here there

theorem first_wall {a b : α} {l m : List α} (positive : ∀ a, 0 < (span a).length)
    (nodup : (footprint ((a :: l).map span)).Nodup) (start : (span a).start = (span b).start)
    (walls : (a :: l).filter wall = (b :: m).filter wall) (bWall : wall b = true) :
    wall a = true := by
  by_contra aWall
  have among : b ∈ (a :: l).filter wall :=
    walls ▸ List.mem_filter.mpr ⟨List.mem_cons_self, bWall⟩
  rw [List.filter_cons_of_neg aWall] at among
  have nonempty := positive a
  refine start_not_mem positive nodup (List.mem_filter.mp among).1 ?_
  simp only [Span.stop]
  omega

theorem Gapped.not_shorter {a b : α} {l m : List α} (positive : ∀ a, 0 < (span a).length)
    (nodup : (footprint ((b :: m).map span)).Nodup)
    (same : footprint ((a :: l).map span) = footprint ((b :: m).map span))
    (walls : (a :: l).filter wall = (b :: m).filter wall) (aOpen : wall a = false)
    (bOpen : wall b = false) (gapped : Gapped span wall (a :: l)) :
    (span b).length ≤ (span a).length := by
  by_contra! longer
  have first := footprint_getElem? (positive a) (l.map span)
  have first' := footprint_getElem? (positive b) (m.map span)
  rw [List.map_cons, List.map_cons] at same
  rw [same, first', Option.some.injEq] at first
  cases l with
  | nil =>
      have lengths := congrArg List.length same
      simp only [List.map_nil, footprint_cons, footprint_nil, List.length_append, List.length_nil,
        Span.cells, cells_length] at lengths
      omega
  | cons c l =>
      have touching := touching_of_footprint_eq (positive a) (positive c) longer same
      have apart := (List.isChain_cons_cons.mp gapped).1 aOpen
      cases closed : wall c with
      | false => exact apart closed touching
      | true =>
          have among : c ∈ (b :: m).filter wall := walls ▸ List.mem_filter.mpr ⟨by simp, closed⟩
          rw [List.filter_cons_of_neg (by simp [bOpen])] at among
          refine start_not_mem positive nodup (List.mem_filter.mp among).1 ?_
          simp only [Span.stop] at touching ⊢
          omega

theorem Gapped.first_unique (positive : ∀ a, 0 < (span a).length)
    (determined : ∀ a b, wall a = false → wall b = false → span a = span b → a = b)
    {a b : α} {l m : List α} (nodup : (footprint ((a :: l).map span)).Nodup)
    (same : footprint ((a :: l).map span) = footprint ((b :: m).map span))
    (walls : (a :: l).filter wall = (b :: m).filter wall) (left : Gapped span wall (a :: l))
    (right : Gapped span wall (b :: m)) : a = b := by
  have first := footprint_getElem? (positive a) (l.map span)
  have first' := footprint_getElem? (positive b) (m.map span)
  rw [← List.map_cons, same, List.map_cons, first', Option.some.injEq] at first
  have nodup' := same ▸ nodup
  have start : (span a).start = (span b).start := by omega
  cases aWall : wall a with
  | false =>
      have bWall : wall b = false := by
        by_contra wallB
        have wallA := first_wall positive nodup start walls (by simpa using wallB)
        exact absurd (aWall.symm.trans wallA) (by decide)
      have shorter := left.not_shorter positive nodup' same walls aWall bWall
      have longer := right.not_shorter positive nodup same.symm walls.symm bWall aWall
      have length : (span a).length = (span b).length := by omega
      refine determined a b aWall bWall ?_
      change (⟨(span a).start, (span a).length⟩ : Span) = ⟨(span b).start, (span b).length⟩
      rw [start, length]
  | true =>
      have bWall := first_wall positive nodup' start.symm walls.symm aWall
      rw [List.filter_cons_of_pos aWall, List.filter_cons_of_pos bWall] at walls
      exact (List.cons.inj walls).1

theorem filter_tail {a : α} {l m : List α} (walls : (a :: l).filter wall = (a :: m).filter wall) :
    l.filter wall = m.filter wall := by
  cases aWall : wall a with
  | false =>
      have none : ¬ wall a = true := by simp [aWall]
      rwa [List.filter_cons_of_neg none, List.filter_cons_of_neg none] at walls
  | true =>
      rw [List.filter_cons_of_pos aWall, List.filter_cons_of_pos aWall] at walls
      exact (List.cons.inj walls).2

/-- A tiling is determined by its cells and its walls. -/
theorem Gapped.unique (positive : ∀ a, 0 < (span a).length)
    (determined : ∀ a b, wall a = false → wall b = false → span a = span b → a = b)
    {l m : List α} (nodup : (footprint (l.map span)).Nodup)
    (same : footprint (l.map span) = footprint (m.map span))
    (walls : l.filter wall = m.filter wall) (left : Gapped span wall l)
    (right : Gapped span wall m) : l = m := by
  induction l generalizing m with
  | nil =>
      cases m with
      | nil => rfl
      | cons b m =>
          have first := footprint_getElem? (positive b) (m.map span)
          rw [← List.map_cons, ← same] at first
          cases first
  | cons a l ih =>
      cases m with
      | nil =>
          have first := footprint_getElem? (positive a) (l.map span)
          rw [← List.map_cons, same] at first
          cases first
      | cons b m =>
          obtain rfl := Gapped.first_unique positive determined nodup same walls left right
          rw [List.map_cons, List.map_cons, footprint_cons, footprint_cons] at same
          rw [List.map_cons, footprint_cons] at nodup
          rw [ih (List.nodup_append'.mp nodup).2.1 (List.append_cancel_left same)
            (filter_tail walls) left.tail right.tail]

/-- Each piece begins where the one before it ends. -/
def Touching (span : α → Span) (l : List α) : Prop :=
  l.IsChain fun a b => (span b).start = (span a).stop

theorem Touching.ascending (positive : ∀ a, 0 < (span a).length) {l : List α}
    (touching : Touching span l) : l.Pairwise fun a b => (span a).stop ≤ (span b).start := by
  have trans : IsTrans α fun a b => (span a).stop ≤ (span b).start := by
    constructor
    intro a b c first second
    have nonempty := positive b
    simp only [Span.stop] at first second ⊢
    omega
  exact List.isChain_iff_pairwise.mp (touching.imp fun a b same => same.ge)

/-- Among pieces that touch without an open neighbour, a stretch of open cells lies in one. -/
theorem Gapped.within (positive : ∀ a, 0 < (span a).length) {l : List α}
    (gapped : Gapped span wall l) (touching : Touching span l) {x n : Nat} (some : 0 < n)
    (opened : ∀ y, x ≤ y → y < x + n →
      ∃ a ∈ l, wall a = false ∧ (span a).start ≤ y ∧ y < (span a).stop) :
    ∃ a ∈ l, wall a = false ∧ (span a).start ≤ x ∧ x + n ≤ (span a).stop := by
  obtain ⟨a, member, aOpen, lower, upper⟩ := opened x (le_refl x) (by omega)
  refine ⟨a, member, aOpen, lower, ?_⟩
  by_contra! beyond
  obtain ⟨c, among, cOpen, starts, ends⟩ := opened (span a).stop upper.le beyond
  have ascending := touching.ascending positive
  obtain ⟨pre, post, rfl⟩ := List.append_of_mem member
  have behind := (List.pairwise_append.mp ascending).2
  rcases List.mem_append.mp among with front | back
  · have before := behind.2 c front a List.mem_cons_self
    have nonempty := positive a
    simp only [Span.stop] at before ends
    omega
  · rcases List.mem_cons.mp back with rfl | back
    · omega
    · cases post with
      | nil => cases back
      | cons d post =>
          have meets := (List.isChain_append.mp touching).2.1.rel
          have apart := (List.isChain_append.mp gapped).2.1.rel
          rcases List.mem_cons.mp back with rfl | back
          · exact apart aOpen cOpen meets
          · have later := (List.pairwise_cons.mp (List.pairwise_cons.mp behind.1).2).1 c back
            have nonempty := positive d
            simp only [Span.stop] at later starts meets
            omega

end

/-- How often a list of cells does not go on by one. -/
def breaks : List Nat → Nat
  | x :: y :: rest => (if y = x + 1 then 0 else 1) + breaks (y :: rest)
  | _ => 0

/-- How often a span does not begin where the one before it ends. -/
def gaps : List Span → Nat
  | s :: t :: rest => (if t.start = s.stop then 0 else 1) + gaps (t :: rest)
  | _ => 0

theorem breaks_cells (start length : Nat) (rest : List Nat) :
    breaks (cells start (length + 1) ++ rest) =
      (if rest.head?.all (· == start + length + 1) then 0 else 1) + breaks rest := by
  induction length generalizing start with
  | zero =>
      have one : cells start (0 + 1) = [start] := rfl
      rw [one]
      cases rest with
      | nil => rfl
      | cons y rest => simp [breaks]
  | succ length ih =>
      have split : cells start (length + 1 + 1) = start :: cells (start + 1) (length + 1) := rfl
      have next : cells (start + 1) (length + 1) =
          (start + 1) :: cells (start + 1 + 1) length := rfl
      have later := ih (start + 1)
      rw [next] at later
      rw [split, next, List.cons_append, List.cons_append, breaks, if_pos rfl, Nat.zero_add,
        ← List.cons_append, later]
      simp only [Nat.add_assoc, Nat.add_comm 1]

/-- The cells of a tiling show its gaps, so tilings of the same cells have as many. -/
theorem breaks_footprint {spans : List Span} (positive : ∀ s ∈ spans, 0 < s.length) :
    breaks (footprint spans) = gaps spans := by
  induction spans with
  | nil => rfl
  | cons s rest ih =>
      have later := ih fun t member => positive t (List.mem_cons_of_mem s member)
      obtain ⟨length, same⟩ := Nat.exists_eq_succ_of_ne_zero
        (Nat.ne_of_gt (positive s List.mem_cons_self))
      rw [footprint_cons, Span.cells, same, breaks_cells, later]
      cases rest with
      | nil => simp [gaps]
      | cons t rest =>
          have first := footprint_getElem? (positive t (by simp)) rest
          rw [← List.head?_eq_getElem?, Nat.add_zero] at first
          have stop : s.start + length + 1 = s.stop := by
            simp only [Span.stop, same]
            rfl
          rw [first, gaps, stop]
          simp

theorem touching_of_no_gaps {spans : List Span} (none : gaps spans = 0) :
    spans.IsChain fun s t => t.start = s.stop := by
  induction spans with
  | nil => exact .nil
  | cons s rest ih =>
      cases rest with
      | nil => exact .singleton s
      | cons t rest =>
          simp only [gaps] at none
          split at none
          · rename_i touching
            exact List.isChain_cons_cons.mpr ⟨touching, ih (by omega)⟩
          · omega

theorem gaps_concat (spans : List Span) (s t : Span) :
    gaps (spans ++ [s] ++ [t]) = gaps (spans ++ [s]) + if t.start = s.stop then 0 else 1 := by
  induction spans with
  | nil => simp [gaps]
  | cons r spans ih =>
      cases spans with
      | nil => simp only [List.nil_append, List.cons_append, gaps] at ih ⊢; omega
      | cons r' spans => simp only [List.cons_append, gaps] at ih ⊢; omega

theorem footprint_length (spans : List Span) :
    (footprint spans).length = (spans.map Span.length).sum := by
  induction spans with
  | nil => rfl
  | cons s spans ih =>
      rw [footprint_cons, List.length_append, ih, List.map_cons, List.sum_cons, Span.cells,
        cells_length]

theorem footprint_of_no_gaps {s : Span} {rest : List Span} (none : gaps (s :: rest) = 0) :
    footprint (s :: rest) = cells s.start ((s :: rest).map Span.length).sum := by
  induction rest generalizing s with
  | nil => simp [footprint_cons, Span.cells]
  | cons t rest ih =>
      obtain ⟨touching, _⟩ := List.isChain_cons_cons.mp (touching_of_no_gaps none)
      have later : gaps (t :: rest) = 0 := by
        rw [gaps, if_pos touching] at none
        omega
      rw [footprint_cons, ih later, touching, Span.stop, Span.cells, cells_append,
        List.map_cons (a := s), List.sum_cons]

theorem Gapped.count_le {α : Type} {span : α → Span} {wall : α → Bool} {l : List α}
    (gapped : Gapped span wall l) :
    l.countP (fun a => !wall a) ≤ l.countP wall + gaps (l.map span) + 1 := by
  have stronger : ∀ {a : α} {l : List α}, Gapped span wall (a :: l) →
      (a :: l).countP (fun a => !wall a) + (wall a).toNat ≤
        (a :: l).countP wall + gaps ((a :: l).map span) + 1 := by
    intro a l gapped
    induction l generalizing a with
    | nil => cases aWall : wall a <;> simp [aWall]
    | cons b l ih =>
        obtain ⟨apart, rest⟩ := List.isChain_cons_cons.mp gapped
        have later := ih rest
        rw [List.countP_cons (l := b :: l), List.countP_cons (l := b :: l), List.map_cons,
          List.map_cons, gaps]
        rw [List.map_cons] at later
        cases aWall : wall a with
        | true =>
            simp only [Bool.not_true, Bool.false_eq_true, if_true, if_false, Bool.toNat_true]
            omega
        | false =>
            cases bWall : wall b with
            | true =>
                simp only [bWall, Bool.toNat_true] at later
                simp only [Bool.not_false, Bool.false_eq_true, if_true, if_false, Bool.toNat_false]
                omega
            | false =>
                simp only [if_neg (apart aWall bWall), Bool.not_false, Bool.false_eq_true, if_true,
                  if_false, Bool.toNat_false]
                omega
  cases l with
  | nil => simp
  | cons a l =>
      have counted := stronger gapped
      omega

end Foundation
