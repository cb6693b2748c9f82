import Mathlib.Tactic.Common
import Mathlib.Order.Bounds.Basic
import Mathlib.Order.MinMax

/-! Rounding up to whole units. -/
namespace Foundation

/-- The least multiple of `unit` that is not below `n`. -/
def roundUp (unit n : Nat) : Nat := unit * ((n + unit - 1) / unit)

variable {unit n : Nat}

theorem roundUp_lt (positive : 0 < unit) (n : Nat) : roundUp unit n < n + unit := by
  have floor := Nat.mul_div_le (n + unit - 1) unit
  unfold roundUp
  omega

theorem le_roundUp (positive : 0 < unit) (n : Nat) : n ≤ roundUp unit n := by
  have floor := Nat.div_add_mod (n + unit - 1) unit
  have rest := Nat.mod_lt (n + unit - 1) positive
  unfold roundUp
  omega

theorem roundUp_mono (unit : Nat) {n : Nat} {m : Nat} (less : n ≤ m) :
    roundUp unit n ≤ roundUp unit m :=
  Nat.mul_le_mul_left _ (Nat.div_le_div_right (by omega))

theorem unit_dvd_roundUp (unit n : Nat) : unit ∣ roundUp unit n := Nat.dvd_mul_right _ _

theorem roundUp_isLeast (positive : 0 < unit) (n : Nat) :
    IsLeast {whole | unit ∣ whole ∧ n ≤ whole} (roundUp unit n) := by
  refine ⟨⟨unit_dvd_roundUp unit n, le_roundUp positive n⟩, ?_⟩
  rintro _ ⟨⟨units, rfl⟩, enough⟩
  apply Nat.mul_le_mul_left
  refine Nat.lt_succ_iff.mp ((Nat.div_lt_iff_lt_mul positive).mpr ?_)
  rw [Nat.succ_mul, Nat.mul_comm units]
  omega

/-- A bound that is a whole number of units already changes nothing but the bound. -/
theorem max_roundUp_isLeast (positive : 0 < unit) (n : Nat) {bound : Nat}
    (whole : unit ∣ bound) :
    IsLeast {k | unit ∣ k ∧ max n bound ≤ k} (max (roundUp unit n) bound) := by
  obtain ⟨⟨divides, enough⟩, least⟩ := roundUp_isLeast positive n
  refine ⟨⟨?_, max_le_max enough (le_refl bound)⟩, ?_⟩
  · rcases max_choice (roundUp unit n) bound with same | same
    · rwa [same]
    · rwa [same]
  · rintro k ⟨divides', enough'⟩
    exact max_le (least ⟨divides', (le_max_left _ _).trans enough'⟩)
      ((le_max_right _ _).trans enough')

/-- Counting units by division and remainder counts them up to the next whole one. -/
theorem mul_units (positive : 0 < unit) (n : Nat) :
    unit * (n / unit + if n % unit > 0 then 1 else 0) = roundUp unit n := by
  have parts := Nat.div_add_mod n unit
  have rest := Nat.mod_lt n positive
  unfold roundUp
  generalize n / unit = whole at parts ⊢
  generalize n % unit = left at parts rest ⊢
  subst parts
  split
  · have split : unit * whole + left + unit - 1 = (left - 1) + unit * (whole + 1) := by
      rw [Nat.mul_add, Nat.mul_one]
      omega
    rw [split, Nat.add_mul_div_left _ _ positive, Nat.div_eq_of_lt (by omega), Nat.zero_add]
  · have split : unit * whole + left + unit - 1 = (unit - 1) + unit * whole := by omega
    rw [split, Nat.add_mul_div_left _ _ positive, Nat.div_eq_of_lt (by omega), Nat.zero_add]
    rfl

end Foundation
