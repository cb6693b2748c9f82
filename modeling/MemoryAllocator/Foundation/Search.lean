import MemoryAllocator.Foundation.Fusion

/-! First fit over a list with fusible neighbours. `search` fuses in passing and stops at
the first good element; `firstFit` looks only at a list that is already fused. The two find
the same element in the same place. -/
namespace Foundation

variable {α : Type}

inductive SearchResult (α : Type) where
  | found (before : List α) (good : α) (after : List α)
  | exhausted (before : List α) (last : α)
  deriving DecidableEq, Repr

namespace SearchResult

def cons (a : α) : SearchResult α → SearchResult α
  | .found before good after => .found (a :: before) good after
  | .exhausted before last => .exhausted (a :: before) last

def prepend (front : List α) : SearchResult α → SearchResult α
  | .found before good after => .found (front ++ before) good after
  | .exhausted before last => .exhausted (front ++ before) last

/-- The whole list a search leaves behind. -/
def list : SearchResult α → List α
  | .found before good after => before ++ good :: after
  | .exhausted before last => before ++ [last]

@[simp] theorem cons_list (a : α) (r : SearchResult α) : (r.cons a).list = a :: r.list := by
  cases r <;> rfl

end SearchResult

/-- The first good element of a list, with what stands before and after it. -/
def firstFit (good : α → Bool) : List α → Option (List α × α × List α)
  | [] => none
  | a :: rest =>
      if good a then some ([], a, rest)
      else (firstFit good rest).map fun (before, b, after) => (a :: before, b, after)

theorem firstFit_eq_none {good : α → Bool} {l : List α} (bad : ∀ a ∈ l, good a = false) :
    firstFit good l = none := by
  induction l with
  | nil => rfl
  | cons a rest ih =>
      have first := bad a List.mem_cons_self
      simp [firstFit, first, ih fun b member => bad b (List.mem_cons_of_mem a member)]

theorem firstFit_append {good : α → Bool} {before : List α} {a : α} (after : List α)
    (bad : ∀ b ∈ before, good b = false) (fits : good a = true) :
    firstFit good (before ++ a :: after) = some (before, a, after) := by
  induction before with
  | nil => simp [firstFit, fits]
  | cons b before ih =>
      have first := bad b List.mem_cons_self
      simp [firstFit, first, ih fun c member => bad c (List.mem_cons_of_mem b member)]

theorem firstFit_eq_some {good : α → Bool} {l before after : List α} {a : α}
    (found : firstFit good l = some (before, a, after)) :
    l = before ++ a :: after ∧ good a = true := by
  induction l generalizing before with
  | nil => cases found
  | cons b rest ih =>
      unfold firstFit at found
      split at found
      · rename_i fits
        obtain ⟨rfl, same⟩ := Prod.mk.inj (Option.some.inj found)
        obtain ⟨rfl, rfl⟩ := Prod.mk.inj same
        exact ⟨rfl, fits⟩
      · obtain ⟨⟨front, c, back⟩, later, same⟩ := Option.map_eq_some_iff.mp found
        obtain ⟨rfl, rest'⟩ := Prod.mk.inj same
        obtain ⟨rfl, rfl⟩ := Prod.mk.inj rest'
        obtain ⟨split, fits⟩ := ih later
        exact ⟨congrArg _ split, fits⟩

namespace Fusion

variable (F : Fusion α)

/-- The first element fused with as many of its successors as possible. -/
def absorb (a : α) : List α → α × List α
  | [] => (a, [])
  | b :: rest => if F.fusible a b then absorb (F.fuse a b) rest else (a, b :: rest)

def search (good : α → Bool) (a : α) : List α → SearchResult α
  | [] => if good a then .found [] a [] else .exhausted [] a
  | b :: rest =>
      if F.fusible a b then search good (F.fuse a b) rest
      else if good a then .found [] a (b :: rest)
      else (search good b rest).cons a

variable {F}

theorem absorb_fuses (a : α) (l : List α) :
    F.Fuses (a :: l) ((F.absorb a l).1 :: (F.absorb a l).2) := by
  induction l generalizing a with
  | nil => exact .refl _
  | cons b rest ih =>
      unfold absorb
      split
      · rename_i fusible
        exact (Fuses.single [] rest fusible).trans (ih _)
      · exact .refl _

theorem absorb_length_le (a : α) (l : List α) : (F.absorb a l).2.length ≤ l.length := by
  have shorter := (absorb_fuses (F := F) a l).length_le
  simpa using shorter

theorem absorb_chain {a : α} {run post : List α}
    (chain : (a :: run).IsChain fun x y => F.fusible x y = true)
    (border : ∀ y ∈ post.head?, F.fusible (F.fuseAll a run) y = false) :
    F.absorb a (run ++ post) = (F.fuseAll a run, post) := by
  induction run generalizing a with
  | nil =>
      cases post with
      | nil => rfl
      | cons c rest => exact if_neg (by simp [show F.fusible a c = false from border c rfl])
  | cons b run ih =>
      obtain ⟨fusible, chain⟩ := List.isChain_cons_cons.mp chain
      have rest := ih (chain_fuse fusible chain) border
      rw [List.cons_append, absorb, if_pos fusible, rest]
      rfl

theorem absorb_run (a : α) (l : List α) :
    ∃ run, l = run ++ (F.absorb a l).2 ∧ (F.absorb a l).1 = F.fuseAll a run ∧
      ((a :: run).IsChain fun x y => F.fusible x y = true) ∧
      ∀ y ∈ (F.absorb a l).2.head?, F.fusible (F.fuseAll a run) y = false := by
  induction l generalizing a with
  | nil => exact ⟨[], rfl, rfl, List.isChain_singleton a, by simp [absorb]⟩
  | cons b rest ih =>
      cases fusible : F.fusible a b with
      | true =>
          obtain ⟨run, split, fused, chain, border⟩ := ih (F.fuse a b)
          have absorbed : F.absorb a (b :: rest) = F.absorb (F.fuse a b) rest := if_pos fusible
          rw [absorbed]
          exact ⟨b :: run, congrArg (b :: ·) split, fused, chain_of_fuse fusible chain, border⟩
      | false =>
          have kept : F.absorb a (b :: rest) = (a, b :: rest) := if_neg (by simp [fusible])
          rw [kept]
          exact ⟨[], rfl, rfl, List.isChain_singleton a, by simpa [fuseAll] using fusible⟩

theorem search_absorb (good : α → Bool) (a : α) (l : List α) :
    F.search good a l =
      if good (F.absorb a l).1 then .found [] (F.absorb a l).1 (F.absorb a l).2
      else match (F.absorb a l).2 with
        | [] => .exhausted [] (F.absorb a l).1
        | b :: rest => (F.search good b rest).cons (F.absorb a l).1 := by
  induction l generalizing a with
  | nil => rfl
  | cons b rest ih =>
      cases fusible : F.fusible a b with
      | true => simp only [search, absorb, fusible, if_true, ih]
      | false => simp only [search, absorb, fusible, Bool.false_eq_true, if_false]

variable (F) in
/-- The normal form of the list a search leaves behind: only what it skipped is open. -/
def settled : SearchResult α → List α
  | .found before a after => before ++ a :: F.coalesce after
  | .exhausted before last => before ++ [last]

/-- The element found is the first good one; an exhausted search passed none. -/
def Decides (good : α → Bool) : SearchResult α → Prop
  | .found before a _ => good a = true ∧ ∀ b ∈ before, good b = false
  | .exhausted before last => ∀ b ∈ before ++ [last], good b = false

/-- What a search has done, whichever way it ended. -/
structure SearchSpec (good : α → Bool) (l : List α) (r : SearchResult α) : Prop where
  fuses : F.Fuses l r.list
  fused : F.coalesce l = F.settled r
  decides : Decides good r

theorem SearchSpec.cons {good : α → Bool} {a : α} {l : List α} {r : SearchResult α}
    (bad : good a = false)
    (spec : SearchSpec (F := F) good l r) (fused : F.coalesce (a :: l) = a :: F.coalesce l) :
    SearchSpec (F := F) good (a :: l) (r.cons a) := by
  obtain ⟨fuses, same, decides⟩ := spec
  refine ⟨by simpa using Fuses.cons a fuses, ?_, ?_⟩
  · rw [fused, same]
    cases r <;> rfl
  · cases r with
    | found before b after =>
        refine ⟨decides.1, ?_⟩
        intro c member
        rcases List.mem_cons.mp member with rfl | later
        · exact bad
        · exact decides.2 c later
    | exhausted before last =>
        intro c member
        rcases List.mem_cons.mp member with rfl | later
        · exact bad
        · exact decides c later

theorem search_spec (good : α → Bool) (a : α) (l : List α) :
    SearchSpec (F := F) good (a :: l) (F.search good a l) := by
  induction l generalizing a with
  | nil =>
      cases fits : good a with
      | true =>
          simp only [search, fits, if_true]
          exact ⟨.refl _, rfl, fits, by simp⟩
      | false =>
          simp only [search, fits, Bool.false_eq_true, if_false]
          exact ⟨.refl _, rfl, by simpa [Decides] using fits⟩
  | cons b rest ih =>
      cases fusible : F.fusible a b with
      | true =>
          simp only [search, fusible, if_true]
          obtain ⟨fuses, fused, decides⟩ := ih (F.fuse a b)
          refine ⟨(Fuses.single [] rest fusible).trans fuses, ?_, decides⟩
          rw [← fused, coalesce_fuse fusible]
      | false =>
          have apart : F.coalesce (a :: b :: rest) = a :: F.coalesce (b :: rest) :=
            coalesce_append (l := [a]) (by simpa using fusible)
          cases fits : good a with
          | true =>
              simp only [search, fusible, fits, Bool.false_eq_true, if_true, if_false]
              exact ⟨.refl _, apart, fits, by simp⟩
          | false =>
              simp only [search, fusible, fits, Bool.false_eq_true, if_false]
              exact (ih b).cons fits apart

/-- A search that finds its element finds the one first fit finds in the normal form. -/
theorem SearchSpec.firstFit_found {good : α → Bool} {l before after : List α} {a : α}
    (spec : SearchSpec (F := F) good l (.found before a after)) :
    firstFit good (F.coalesce l) = some (before, a, F.coalesce after) := by
  rw [spec.fused]
  exact firstFit_append _ spec.decides.2 spec.decides.1

theorem SearchSpec.firstFit_exhausted {good : α → Bool} {l before : List α} {last : α}
    (spec : SearchSpec (F := F) good l (.exhausted before last)) :
    firstFit good (F.coalesce l) = none := by
  rw [spec.fused]
  exact firstFit_eq_none spec.decides

/-- The element found is a longest run of the list; what follows the run was not looked at. -/
theorem search_found {good : α → Bool} {a g : α} {l before after : List α}
    (found : F.search good a l = .found before g after) :
    ∃ pre x run, a :: l = pre ++ x :: (run ++ after) ∧ F.coalesce pre = before ∧
      F.fuseAll x run = g ∧ F.Longest pre x run after := by
  induction l generalizing a before with
  | nil =>
      unfold search at found
      split at found
      · cases found
        exact ⟨[], _, [], rfl, rfl, rfl, List.isChain_singleton _, by simp, by simp⟩
      · cases found
  | cons b rest ih =>
      cases fusible : F.fusible a b with
      | true =>
          simp only [search, fusible, if_true] at found
          obtain ⟨pre, x, run, split, front, fused, longest⟩ := ih found
          cases pre with
          | nil =>
              obtain ⟨rfl, rfl⟩ := List.cons.inj split
              exact ⟨[], a, b :: run, rfl, front, fused, chain_of_fuse fusible longest.chain,
                by simp, longest.right⟩
          | cons c pre =>
              obtain ⟨rfl, rfl⟩ := List.cons.inj split
              refine ⟨a :: b :: pre, x, run, rfl, (coalesce_fuse fusible pre).symm.trans front,
                fused, longest.chain, ?_, longest.right⟩
              have left := longest.left
              cases pre with
              | nil => simpa [F.fusible_fuse_left x fusible] using left
              | cons d pre => simpa using left
      | false =>
          simp only [search, fusible, Bool.false_eq_true, if_false] at found
          split at found
          · cases found
            exact ⟨[], _, [], rfl, rfl, rfl, List.isChain_singleton _, by simp,
              by simpa [fuseAll] using fusible⟩
          · cases later : F.search good b rest with
            | exhausted front last =>
                rw [later] at found
                cases found
            | found front h back =>
                rw [later] at found
                cases found
                obtain ⟨pre, x, run, split, front, fused, longest⟩ := ih later
                have border : ∀ y ∈ (pre ++ [x]).head?, F.fusible a y = false := by
                  cases pre with
                  | nil => simpa [← (List.cons.inj split).1] using fusible
                  | cons c pre => simpa [← (List.cons.inj split).1] using fusible
                refine ⟨a :: pre, x, run, congrArg _ split, ?_, fused, longest.chain, ?_,
                  longest.right⟩
                · rw [← front]
                  apply coalesce_append (l := [a])
                  intro c only y head
                  obtain rfl := Option.some.inj only
                  exact border y (by simp [List.head?_append, Option.mem_def.mp head])
                · cases pre with
                  | nil => simpa using border
                  | cons c pre => simpa using longest.left

theorem search_skip {good : α → Bool} {a g : α} {l front rest : List α}
    (split : a :: l = front ++ g :: rest) (separated : F.Separated (front ++ [g]))
    (bad : ∀ x ∈ front, good x = false) :
    F.search good a l = (F.search good g rest).prepend front := by
  induction front generalizing a l with
  | nil =>
      obtain ⟨rfl, rfl⟩ := List.cons.inj split
      cases F.search good a l <;> rfl
  | cons x front ih =>
      obtain ⟨rfl, tail⟩ := List.cons.inj split
      have later := fun y member => bad y (List.mem_cons_of_mem a member)
      obtain ⟨b, more, next⟩ : ∃ b more, front ++ g :: rest = b :: more := by
        cases front with
        | nil => exact ⟨g, rest, rfl⟩
        | cons c front => exact ⟨c, front ++ g :: rest, rfl⟩
      have apart : F.fusible a b = false := by
        cases front with
        | nil =>
            obtain ⟨rfl, _⟩ := List.cons.inj next
            exact (List.isChain_cons_cons.mp separated).1
        | cons c front =>
            obtain ⟨rfl, _⟩ := List.cons.inj next
            exact (List.isChain_cons_cons.mp separated).1
      have behind : F.Separated (front ++ [g]) := separated.tail
      have skipped := ih next.symm behind later
      obtain rfl : l = b :: more := tail.trans next
      simp only [search, apart, bad a List.mem_cons_self, Bool.false_eq_true, if_false, skipped]
      cases F.search good g rest <;> rfl

end Fusion
end Foundation
