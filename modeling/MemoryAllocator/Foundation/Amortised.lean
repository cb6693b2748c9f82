import Mathlib.Data.Nat.ModEq
import MemoryAllocator.Foundation.Runs

/-! Amortised cost of runs: what a step costs is paid by the charge of its action and by what
earlier steps have saved. -/
namespace Foundation

variable {σ α : Type}

/-- A finite run, with what its steps cost in all. -/
inductive MeteredRun (step : σ → α → σ → Prop) (cost : σ → α → σ → Nat) :
    σ → List α → Nat → σ → Prop
  | nil (s : σ) : MeteredRun step cost s [] 0 s
  | cons {s s' s'' : σ} {a : α} {actions : List α} {spent : Nat} : step s a s' →
      MeteredRun step cost s' actions spent s'' →
      MeteredRun step cost s (a :: actions) (cost s a s' + spent) s''

section
variable {step : σ → α → σ → Prop} {cost : σ → α → σ → Nat}

theorem Run.metered {s s' : σ} {actions : List α} (run : Run step s actions s')
    (cost : σ → α → σ → Nat) : ∃ spent, MeteredRun step cost s actions spent s' := by
  induction run with
  | nil s => exact ⟨0, .nil s⟩
  | cons first _ ih =>
      obtain ⟨spent, metered⟩ := ih
      exact ⟨_, .cons first metered⟩

/-- Every step leaves savings that, with its cost, come to no more than its charge and the
savings before. -/
structure Pays (step : σ → α → σ → Prop) (cost : σ → α → σ → Nat) (saved : σ → Nat → Prop)
    (charge : α → Nat) : Prop where
  step : ∀ {s s' a before}, saved s before → step s a s' →
    ∃ after, saved s' after ∧ cost s a s' + after ≤ charge a + before

/-- So does every run: all it costs is covered by its charges and the savings it began with. -/
theorem Pays.run {saved : σ → Nat → Prop} {charge : α → Nat}
    (pays : Pays step cost saved charge) {s s' : σ} {actions : List α} {spent before : Nat}
    (metered : MeteredRun step cost s actions spent s') (start : saved s before) :
    ∃ after, saved s' after ∧ spent + after ≤ (actions.map charge).sum + before := by
  induction metered generalizing before with
  | nil s => exact ⟨before, start, Nat.le_refl _⟩
  | cons first _ ih =>
      obtain ⟨between, left, paid⟩ := pays.step start first
      obtain ⟨after, ended, later⟩ := ih left
      refine ⟨after, ended, ?_⟩
      rw [List.map_cons, List.sum_cons]
      omega

end

end Foundation
