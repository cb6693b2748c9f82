import Mathlib.Data.List.Chain
import Mathlib.Logic.Relation

/-! Lists whose neighbours may fuse. Fusing is partial and associative, so every order of
fusing the neighbours of a list ends in the same normal form, `coalesce`. -/
namespace Foundation

structure Fusion (α : Type) where
  fusible : α → α → Bool
  fuse : α → α → α
  fusible_fuse_left : ∀ {a b} c, fusible a b = true → fusible (fuse a b) c = fusible b c
  fusible_fuse_right : ∀ a {b c}, fusible b c = true → fusible a (fuse b c) = fusible a b
  fuse_assoc : ∀ {a b c}, fusible a b = true → fusible b c = true →
    fuse (fuse a b) c = fuse a (fuse b c)

namespace Fusion

variable {α : Type} (F : Fusion α)

/-- No two neighbours are left to fuse. -/
def Separated (l : List α) : Prop := l.IsChain fun a b => F.fusible a b = false

/-- One pair of neighbours is replaced by its fusion. -/
inductive FuseStep : List α → List α → Prop
  | fuse (pre : List α) {a b : α} (post : List α) : F.fusible a b = true →
      FuseStep (pre ++ a :: b :: post) (pre ++ F.fuse a b :: post)

def Fuses : List α → List α → Prop := Relation.ReflTransGen F.FuseStep

def push (a : α) : List α → List α
  | [] => [a]
  | b :: rest => if F.fusible a b then F.fuse a b :: rest else a :: b :: rest

/-- The list with every run of fusible neighbours fused into one. -/
def coalesce : List α → List α
  | [] => []
  | a :: rest => F.push a (coalesce rest)

variable {F}

namespace Fuses

theorem refl (l : List α) : F.Fuses l l := Relation.ReflTransGen.refl

theorem trans {l m n : List α} (first : F.Fuses l m) (second : F.Fuses m n) : F.Fuses l n :=
  Relation.ReflTransGen.trans first second

theorem single (pre : List α) {a b : α} (post : List α) (fusible : F.fusible a b = true) :
    F.Fuses (pre ++ a :: b :: post) (pre ++ F.fuse a b :: post) :=
  Relation.ReflTransGen.single (.fuse pre post fusible)

theorem invariant {β : Type} {f : List α → β}
    (kept : ∀ pre a b post, F.fusible a b = true →
      f (pre ++ F.fuse a b :: post) = f (pre ++ a :: b :: post))
    {l m : List α} (fuses : F.Fuses l m) : f m = f l := by
  induction fuses with
  | refl => rfl
  | tail _ last ih =>
      cases last with
      | fuse pre post fusible => exact (kept pre _ _ post fusible).trans ih

theorem context {l m : List α} (fuses : F.Fuses l m) (pre post : List α) :
    F.Fuses (pre ++ l ++ post) (pre ++ m ++ post) := by
  induction fuses with
  | refl => exact refl _
  | tail _ last ih =>
      cases last with
      | @fuse before a b behind fusible =>
          apply ih.trans
          simpa using single (pre ++ before) (behind ++ post) fusible

theorem cons {l m : List α} (a : α) (fuses : F.Fuses l m) : F.Fuses (a :: l) (a :: m) := by
  simpa using fuses.context [a] []

theorem map {f : α → α}
    (fixed : ∀ {a b}, F.fusible a b = true → f a = a ∧ f b = b ∧ f (F.fuse a b) = F.fuse a b)
    {l m : List α} (fuses : F.Fuses l m) : F.Fuses (l.map f) (m.map f) := by
  induction fuses with
  | refl => exact refl _
  | tail _ last ih =>
      cases last with
      | fuse pre post fusible =>
          obtain ⟨left, right, fused⟩ := fixed fusible
          apply ih.trans
          simp only [List.map_append, List.map_cons, left, right, fused]
          exact single (pre.map f) (post.map f) fusible

theorem length_le {l m : List α} (fuses : F.Fuses l m) : m.length ≤ l.length := by
  induction fuses with
  | refl => exact le_refl _
  | tail _ last ih =>
      cases last with
      | fuse pre post fusible =>
          simp only [List.length_append, List.length_cons] at ih ⊢
          omega

end Fuses

theorem push_ne_nil (a : α) (l : List α) : F.push a l ≠ [] := by
  cases l with
  | nil => simp [push]
  | cons b rest => cases fusible : F.fusible a b <;> simp [push, fusible]

theorem push_of_fusible {a b : α} (fusible : F.fusible a b = true) (rest : List α) :
    F.push a (b :: rest) = F.fuse a b :: rest := by
  simp [push, fusible]

theorem push_of_not_fusible {a b : α} (apart : F.fusible a b = false) (rest : List α) :
    F.push a (b :: rest) = a :: b :: rest := by
  simp [push, apart]

theorem push_push {a b : α} (fusible : F.fusible a b = true) (l : List α) :
    F.push a (F.push b l) = F.push (F.fuse a b) l := by
  cases l with
  | nil => simp [push, fusible]
  | cons c rest =>
      have past := F.fusible_fuse_left c fusible
      cases next : F.fusible b c with
      | true =>
          rw [push_of_fusible next, push_of_fusible ((F.fusible_fuse_right a next).trans fusible),
            push_of_fusible (past.trans next), F.fuse_assoc fusible next]
      | false =>
          rw [push_of_not_fusible next, push_of_fusible fusible,
            push_of_not_fusible (past.trans next)]

theorem coalesce_cons (a : α) (l : List α) : F.coalesce (a :: l) = F.push a (F.coalesce l) := rfl

theorem coalesce_ne_nil {l : List α} (nonempty : l ≠ []) : F.coalesce l ≠ [] := by
  cases l with
  | nil => exact absurd rfl nonempty
  | cons a rest => exact push_ne_nil a _

theorem coalesce_fuse {a b : α} (fusible : F.fusible a b = true) (rest : List α) :
    F.coalesce (F.fuse a b :: rest) = F.coalesce (a :: b :: rest) := by
  simp only [coalesce_cons, push_push fusible]

theorem coalesce_append_congr (pre : List α) {l m : List α} (same : F.coalesce l = F.coalesce m) :
    F.coalesce (pre ++ l) = F.coalesce (pre ++ m) := by
  induction pre with
  | nil => exact same
  | cons a pre ih => simp only [List.cons_append, coalesce_cons, ih]

theorem coalesce_of_fuses {l m : List α} (fuses : F.Fuses l m) : F.coalesce m = F.coalesce l :=
  fuses.invariant fun pre _ _ post fusible => coalesce_append_congr pre (coalesce_fuse fusible post)

theorem coalesce_head (a : α) (l : List α) :
    ∃ b rest, F.coalesce (a :: l) = b :: rest ∧ ∀ x, F.fusible x b = F.fusible x a := by
  rw [coalesce_cons]
  cases F.coalesce l with
  | nil => exact ⟨a, [], rfl, fun _ => rfl⟩
  | cons c rest =>
      cases fusible : F.fusible a c with
      | true => exact ⟨_, _, push_of_fusible fusible rest, fun x => F.fusible_fuse_right x fusible⟩
      | false => exact ⟨_, _, push_of_not_fusible fusible rest, fun _ => rfl⟩

theorem push_separated {a : α} {l : List α} (separated : F.Separated l) :
    F.Separated (F.push a l) := by
  unfold Separated at separated ⊢
  cases l with
  | nil => exact List.isChain_singleton a
  | cons b rest =>
      cases fusible : F.fusible a b with
      | false =>
          rw [push_of_not_fusible fusible]
          exact List.isChain_cons_cons.mpr ⟨fusible, separated⟩
      | true =>
          rw [push_of_fusible fusible]
          cases rest with
          | nil => exact List.isChain_singleton _
          | cons c rest =>
              rw [List.isChain_cons_cons] at separated ⊢
              exact ⟨(F.fusible_fuse_left c fusible).trans separated.1, separated.2⟩

theorem coalesce_separated (l : List α) : F.Separated (F.coalesce l) := by
  induction l with
  | nil => exact List.isChain_nil
  | cons a rest ih => exact push_separated ih

theorem coalesce_of_separated {l : List α} (separated : F.Separated l) : F.coalesce l = l := by
  induction l with
  | nil => rfl
  | cons a rest ih =>
      cases rest with
      | nil => rfl
      | cons b rest =>
          obtain ⟨apart, separated⟩ := List.isChain_cons_cons.mp separated
          rw [coalesce_cons, ih separated, push_of_not_fusible apart]

theorem fuses_push (a : α) (l : List α) : F.Fuses (a :: l) (F.push a l) := by
  cases l with
  | nil => exact .refl _
  | cons b rest =>
      cases fusible : F.fusible a b with
      | true =>
          rw [push_of_fusible fusible]
          exact .single [] rest fusible
      | false =>
          rw [push_of_not_fusible fusible]
          exact .refl _

theorem fuses_coalesce (l : List α) : F.Fuses l (F.coalesce l) := by
  induction l with
  | nil => exact .refl _
  | cons a rest ih => exact (Fuses.cons a ih).trans (fuses_push a _)

@[simp] theorem coalesce_coalesce (l : List α) : F.coalesce (F.coalesce l) = F.coalesce l :=
  coalesce_of_separated (coalesce_separated l)

theorem coalesce_append_coalesce (l m : List α) :
    F.coalesce (F.coalesce l ++ m) = F.coalesce (l ++ m) := by
  have fuses := (fuses_coalesce (F := F) l).context [] m
  simpa using coalesce_of_fuses fuses

theorem coalesce_append {l m : List α}
    (border : ∀ a ∈ l.getLast?, ∀ b ∈ m.head?, F.fusible a b = false) :
    F.coalesce (l ++ m) = F.coalesce l ++ F.coalesce m := by
  induction l with
  | nil => rfl
  | cons a rest ih =>
      cases rest with
      | nil =>
          cases m with
          | nil => rfl
          | cons b m =>
              obtain ⟨c, tail, same, fusible⟩ := coalesce_head (F := F) b m
              have apart : F.fusible a c = false := (fusible a).trans (border a rfl b rfl)
              rw [List.cons_append, List.nil_append, coalesce_cons, same, push_of_not_fusible apart]
              rfl
      | cons b rest =>
          obtain ⟨c, tail, same, _⟩ := coalesce_head (F := F) b rest
          have split := ih (fun x last => border x (by simpa using last))
          rw [List.cons_append, coalesce_cons, split, coalesce_cons a, same]
          cases fusible : F.fusible a c with
          | true => simp [push_of_fusible fusible]
          | false => simp [push_of_not_fusible fusible]

/-- An element that fuses with nothing splits the normal form around it. -/
theorem coalesce_around {w : α} (left : ∀ x, F.fusible x w = false)
    (right : ∀ x, F.fusible w x = false) (pre post : List α) :
    F.coalesce (pre ++ w :: post) = F.coalesce pre ++ w :: F.coalesce post := by
  have front := coalesce_append (F := F) (l := pre) (m := w :: post) (by simp [left])
  have back := coalesce_append (F := F) (l := [w]) (m := post) (by simp [right])
  rw [front]
  exact congrArg _ back

variable (F) in
/-- Two lists put together, with the pair at their border fused where it can be. -/
def joinLast (pre mid : List α) : List α :=
  match pre.getLast? with
  | none => mid
  | some a => pre.dropLast ++ F.push a mid

/-- Only the border is left to fuse when both sides are in normal form. -/
theorem coalesce_append_joinLast {pre mid : List α} (left : F.Separated pre)
    (right : F.Separated mid) : F.coalesce (pre ++ mid) = F.joinLast pre mid := by
  induction pre with
  | nil => exact coalesce_of_separated right
  | cons a rest ih =>
      cases rest with
      | nil =>
          rw [List.cons_append, List.nil_append, coalesce_cons, coalesce_of_separated right]
          rfl
      | cons b rest =>
          obtain ⟨apart, separated⟩ := List.isChain_cons_cons.mp left
          obtain ⟨c, tail, same, fusible⟩ := coalesce_head (F := F) b (rest ++ mid)
          have later : F.coalesce (b :: rest ++ mid) = c :: tail := same
          rw [List.cons_append, coalesce_cons, later,
            push_of_not_fusible ((fusible a).trans apart), ← later, ih separated]
          simp only [joinLast, List.getLast?_cons_cons,
            List.getLast?_eq_some_getLast (List.cons_ne_nil b rest)]
          rfl

/-- A chain of fusible neighbours, fused from the left. -/
def fuseAll (F : Fusion α) (a : α) (rest : List α) : α := rest.foldl F.fuse a

variable (F) in
/-- A longest run of fusible neighbours: it fuses with nothing on either side. -/
structure Longest (pre : List α) (a : α) (run post : List α) : Prop where
  chain : (a :: run).IsChain fun x y => F.fusible x y = true
  left : ∀ x ∈ pre.getLast?, F.fusible x a = false
  right : ∀ y ∈ post.head?, F.fusible (F.fuseAll a run) y = false

theorem chain_fuse {a b : α} {rest : List α} (fusible : F.fusible a b = true)
    (chain : (b :: rest).IsChain fun x y => F.fusible x y = true) :
    (F.fuse a b :: rest).IsChain fun x y => F.fusible x y = true := by
  cases rest with
  | nil => exact List.isChain_singleton _
  | cons c rest =>
      rw [List.isChain_cons_cons] at chain ⊢
      exact ⟨(F.fusible_fuse_left c fusible).trans chain.1, chain.2⟩

theorem chain_of_fuse {a b : α} {rest : List α} (fusible : F.fusible a b = true)
    (chain : (F.fuse a b :: rest).IsChain fun x y => F.fusible x y = true) :
    (a :: b :: rest).IsChain fun x y => F.fusible x y = true := by
  refine List.isChain_cons_cons.mpr ⟨fusible, ?_⟩
  cases rest with
  | nil => exact List.isChain_singleton b
  | cons c rest =>
      rw [List.isChain_cons_cons] at chain ⊢
      exact ⟨(F.fusible_fuse_left c fusible).symm.trans chain.1, chain.2⟩

theorem fusible_fuseAll (x : α) {a : α} {run : List α}
    (chain : (a :: run).IsChain fun x y => F.fusible x y = true) :
    F.fusible x (F.fuseAll a run) = F.fusible x a := by
  induction run generalizing a with
  | nil => rfl
  | cons b rest ih =>
      obtain ⟨fusible, chain⟩ := List.isChain_cons_cons.mp chain
      exact (ih (chain_fuse fusible chain)).trans (F.fusible_fuse_right x fusible)

theorem fuses_fuseAll {a : α} {run : List α}
    (chain : (a :: run).IsChain fun x y => F.fusible x y = true) :
    F.Fuses (a :: run) [F.fuseAll a run] := by
  induction run generalizing a with
  | nil => exact .refl _
  | cons b rest ih =>
      obtain ⟨fusible, chain⟩ := List.isChain_cons_cons.mp chain
      exact (Fuses.single [] rest fusible).trans (ih (chain_fuse fusible chain))

theorem fuseAll_cons {a b : α} {run : List α} (fusible : F.fusible a b = true)
    (chain : (b :: run).IsChain fun x y => F.fusible x y = true) :
    F.fuseAll a (b :: run) = F.fuse a (F.fuseAll b run) := by
  induction run generalizing b with
  | nil => rfl
  | cons c rest ih =>
      obtain ⟨next, chain⟩ := List.isChain_cons_cons.mp chain
      have moved := ih ((F.fusible_fuse_right a next).trans fusible) (chain_fuse next chain)
      simp only [fuseAll, List.foldl_cons] at moved ⊢
      rw [F.fuse_assoc fusible next, moved]

theorem Longest.coalesce {pre run post : List α} {a : α} (longest : F.Longest pre a run post) :
    F.coalesce (pre ++ a :: (run ++ post)) =
      F.coalesce pre ++ F.fuseAll a run :: F.coalesce post := by
  have fuses := (fuses_fuseAll longest.chain).context pre post
  have fused := coalesce_of_fuses fuses
  simp only [List.append_assoc, List.cons_append, List.nil_append] at fused
  have front : F.coalesce (pre ++ F.fuseAll a run :: post) =
      F.coalesce pre ++ F.coalesce (F.fuseAll a run :: post) := by
    apply coalesce_append
    intro x last y head
    obtain rfl := Option.some.inj head
    exact (fusible_fuseAll x longest.chain).trans (longest.left x last)
  have back : F.coalesce (F.fuseAll a run :: post) = F.fuseAll a run :: F.coalesce post := by
    apply coalesce_append (l := [F.fuseAll a run])
    intro x only y head
    obtain rfl := Option.some.inj only
    exact longest.right y head
  rw [← fused, front, back]

theorem coalesce_eq_nil {l : List α} (empty : F.coalesce l = []) : l = [] := by
  by_contra nonempty
  exact coalesce_ne_nil nonempty empty

variable (F) in
/-- An element of the normal form of `l`, with the run it comes from. -/
def Comes (l x : List α) (f : α) (y : List α) : Prop :=
  ∃ pre a run post, l = pre ++ a :: (run ++ post) ∧ F.coalesce pre = x ∧
    F.fuseAll a run = f ∧ F.coalesce post = y ∧ F.Longest pre a run post

theorem getLast?_cons_of_ne_nil {b : α} {pre : List α} (nonempty : pre ≠ []) :
    (b :: pre).getLast? = pre.getLast? := by
  cases pre with
  | nil => exact absurd rfl nonempty
  | cons c pre => exact List.getLast?_cons_cons

theorem coalesce_split_joined {b c f : α} {rest tail x y : List α} (fusible : F.fusible b c = true)
    (same : F.fuse b c :: tail = x ++ f :: y) (settled : F.coalesce rest = c :: tail)
    (ih : ∀ {x y f}, F.coalesce rest = x ++ f :: y → F.Comes rest x f y) :
    F.Comes (b :: rest) x f y := by
  cases x with
  | nil =>
      obtain ⟨rfl, rfl⟩ := List.cons.inj same
      obtain ⟨pre, a, run, post, rfl, front, rfl, behind, longest⟩ := ih (x := []) settled
      obtain rfl := coalesce_eq_nil front
      have joins : F.fusible b a = true := (fusible_fuseAll b longest.chain).symm.trans fusible
      have fused := fuseAll_cons joins longest.chain
      refine ⟨[], b, a :: run, post, rfl, rfl, fused, behind,
        List.isChain_cons_cons.mpr ⟨joins, longest.chain⟩, by simp, ?_⟩
      intro d head
      rw [fused, F.fusible_fuse_left d fusible]
      exact longest.right d head
  | cons d x =>
      obtain ⟨rfl, rfl⟩ := List.cons.inj same
      obtain ⟨pre, a, run, post, rfl, front, fused, behind, longest⟩ := ih (x := c :: x) settled
      have nonempty : pre ≠ [] := by
        rintro rfl
        cases front
      refine ⟨b :: pre, a, run, post, rfl, ?_, fused, behind, longest.chain, ?_, longest.right⟩
      · rw [coalesce_cons, front, push_of_fusible fusible]
      · rw [getLast?_cons_of_ne_nil nonempty]
        exact longest.left

theorem coalesce_split_apart {b c f : α} {rest tail x y : List α} (apart : F.fusible b c = false)
    (same : b :: c :: tail = x ++ f :: y) (settled : F.coalesce rest = c :: tail)
    (ih : ∀ {x y f}, F.coalesce rest = x ++ f :: y → F.Comes rest x f y) :
    F.Comes (b :: rest) x f y := by
  cases x with
  | nil =>
      obtain ⟨rfl, rfl⟩ := List.cons.inj same
      refine ⟨[], b, [], rest, rfl, rfl, rfl, settled, List.isChain_singleton _, by simp, ?_⟩
      intro d head
      cases rest with
      | nil => cases head
      | cons e rest =>
          obtain rfl := Option.some.inj head
          obtain ⟨c', tail', same, fusible⟩ := coalesce_head (F := F) e rest
          obtain ⟨rfl, rfl⟩ := List.cons.inj (settled.symm.trans same)
          exact (fusible b).symm.trans apart
  | cons d x =>
      obtain ⟨rfl, split⟩ := List.cons.inj same
      obtain ⟨pre, a, run, post, rfl, front, fused, behind, longest⟩ := ih (settled.trans split)
      refine ⟨b :: pre, a, run, post, rfl, ?_, fused, behind, longest.chain, ?_, longest.right⟩
      · rw [coalesce_cons, front]
        cases x with
        | nil => rfl
        | cons e x =>
            obtain ⟨rfl, _⟩ := List.cons.inj split
            exact push_of_not_fusible apart x
      · by_cases first : pre = []
        · subst first
          obtain rfl : x = [] := front.symm
          obtain ⟨rfl, _⟩ := List.cons.inj split
          intro e last
          obtain rfl := Option.some.inj last
          rw [← fused, fusible_fuseAll b longest.chain] at apart
          exact apart
        · rw [getLast?_cons_of_ne_nil first]
          exact longest.left

/-- Every element of the normal form comes from a longest run. -/
theorem coalesce_eq_append {l x y : List α} {f : α} (same : F.coalesce l = x ++ f :: y) :
    F.Comes l x f y := by
  induction l generalizing x y f with
  | nil => simp [Fusion.coalesce] at same
  | cons b rest ih =>
      cases settled : F.coalesce rest with
      | nil =>
          obtain rfl := coalesce_eq_nil settled
          have alone : [b] = x ++ f :: y := same
          obtain ⟨rfl, only⟩ : x = [] ∧ [b] = f :: y := by
            cases x with
            | nil => exact ⟨rfl, alone⟩
            | cons c x => simp at alone
          obtain ⟨rfl, rfl⟩ := List.cons.inj only
          exact ⟨[], b, [], [], rfl, rfl, rfl, rfl, List.isChain_singleton _, by simp, by simp⟩
      | cons c tail =>
          rw [coalesce_cons, settled] at same
          cases fusible : F.fusible b c with
          | true =>
              rw [push_of_fusible fusible] at same
              exact coalesce_split_joined fusible same settled ih
          | false =>
              rw [push_of_not_fusible fusible] at same
              exact coalesce_split_apart fusible same settled ih

end Fusion
end Foundation
