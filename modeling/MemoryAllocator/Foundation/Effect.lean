import Mathlib.Tactic.Common

/-! Total correctness for stateful code that may fail to return. `Ensures c s Q` says that
`c` does return from `s`, so a run that never ends satisfies nothing. -/
namespace Foundation

variable {σ α β : Type}

/-- From state `s` the code returns a value and a state that satisfy `Q`. -/
def Ensures (code : StateT σ Option α) (s : σ) (Q : α → σ → Prop) : Prop :=
  ∃ a s', code s = some (a, s') ∧ Q a s'

theorem Ensures.mono {code : StateT σ Option α} {s : σ} {P Q : α → σ → Prop}
    (run : Ensures code s P) (weaken : ∀ a s', P a s' → Q a s') : Ensures code s Q := by
  obtain ⟨a, s', returned, holds⟩ := run
  exact ⟨a, s', returned, weaken a s' holds⟩

/-- What two derivations say about one run holds of it together. -/
theorem Ensures.and {code : StateT σ Option α} {s : σ} {P Q : α → σ → Prop}
    (left : Ensures code s P) (right : Ensures code s Q) :
    Ensures code s fun a s' => P a s' ∧ Q a s' := by
  obtain ⟨a, s', returned, holds⟩ := left
  obtain ⟨b, s'', again, holds'⟩ := right
  obtain ⟨rfl, rfl⟩ := Prod.mk.inj (Option.some.inj (returned.symm.trans again))
  exact ⟨a, s', returned, holds, holds'⟩

@[simp] theorem ensures_pure {a : α} {s : σ} {Q : α → σ → Prop} :
    Ensures (pure a) s Q ↔ Q a s := by
  constructor
  · rintro ⟨b, s', returned, holds⟩
    cases returned
    exact holds
  · exact fun holds => ⟨a, s, rfl, holds⟩

theorem bind_apply (code : StateT σ Option α) (next : α → StateT σ Option β) (s : σ) :
    (code >>= next) s = (code s).bind fun p => next p.1 p.2 := by
  change (StateT.bind code next) s = _
  simp only [StateT.bind]
  cases code s <;> rfl

/-- Sequencing: the first part must reach a state from which the second ensures `Q`. -/
@[simp] theorem ensures_bind {code : StateT σ Option α} {next : α → StateT σ Option β} {s : σ}
    {Q : β → σ → Prop} :
    Ensures (code >>= next) s Q ↔ Ensures code s (fun a s' => Ensures (next a) s' Q) := by
  constructor
  · rintro ⟨b, s'', returned, holds⟩
    rw [bind_apply, Option.bind_eq_some_iff] at returned
    obtain ⟨⟨a, s'⟩, first, second⟩ := returned
    exact ⟨a, s', first, b, s'', second, holds⟩
  · rintro ⟨a, s', first, b, s'', second, holds⟩
    exact ⟨b, s'', by rw [bind_apply, first]; exact second, holds⟩

/-- Two pieces of code agree from a state if their first parts do and the rest agrees on
whatever the first part returns. -/
theorem bind_agree {code code' : StateT σ Option α} {next next' : α → StateT σ Option β} {s : σ}
    (same : code' s = code s)
    (later : ∀ a s', code s = some (a, s') → next' a s' = next a s') :
    (code' >>= next') s = (code >>= next) s := by
  rw [bind_apply, bind_apply, same]
  cases returned : code s with
  | none => rfl
  | some p => exact later p.1 p.2 returned

theorem bind_of_returns {code : StateT σ Option α} {next : α → StateT σ Option β} {s s' : σ} {a : α}
    (returned : code s = some (a, s')) : (code >>= next) s = next a s' := by
  rw [bind_apply, returned]
  rfl

@[simp] theorem ensures_map {f : α → β} {code : StateT σ Option α} {s : σ} {Q : β → σ → Prop} :
    Ensures (f <$> code) s Q ↔ Ensures code s (fun a s' => Q (f a) s') := by
  rw [map_eq_pure_bind, ensures_bind]
  simp only [ensures_pure]

theorem Ensures.bind {code : StateT σ Option α} {next : α → StateT σ Option β} {s : σ}
    {P : α → σ → Prop} {Q : β → σ → Prop} (first : Ensures code s P)
    (second : ∀ a s', P a s' → Ensures (next a) s' Q) : Ensures (code >>= next) s Q :=
  ensures_bind.mpr (first.mono second)

theorem ensures_of_returns {code : StateT σ Option α} {s s' : σ} {a : α} {Q : α → σ → Prop}
    (returned : code s = some (a, s')) : Ensures code s Q ↔ Q a s' := by
  constructor
  · rintro ⟨b, s'', same, holds⟩
    rw [returned] at same
    cases same
    exact holds
  · exact fun holds => ⟨a, s', returned, holds⟩

theorem Ensures.of_returns {code : StateT σ Option α} {s s' : σ} {a : α} {Q : α → σ → Prop}
    (run : Ensures code s Q) (returned : code s = some (a, s')) : Q a s' :=
  (ensures_of_returns returned).mp run

end Foundation
