import Mathlib.Data.List.Basic

/-! Runs of labelled transition systems: an invariant that every step keeps holds after any
run, and a system that follows a deterministic service step by step follows it over whole
runs. -/
namespace Foundation

variable {σ τ α β ρ ω : Type}

/-- A finite run, labelled with the actions taken in order. -/
inductive Run (step : σ → α → σ → Prop) : σ → List α → σ → Prop
  | nil (s : σ) : Run step s [] s
  | cons {s s' s'' : σ} {a : α} {actions : List α} :
      step s a s' → Run step s' actions s'' → Run step s (a :: actions) s''

namespace Run

variable {step : σ → α → σ → Prop}

theorem invariant {I : σ → Prop} (preserved : ∀ s a s', I s → step s a s' → I s')
    {s s' : σ} {actions : List α} (run : Run step s actions s') (start : I s) : I s' := by
  induction run with
  | nil s => exact start
  | cons first _ ih => exact ih (preserved _ _ _ start first)

theorem invariant_among {I : σ → Prop} {among : α → Prop}
    (preserved : ∀ s a s', among a → I s → step s a s' → I s') {s s' : σ} {actions : List α}
    (run : Run step s actions s') (all : ∀ a ∈ actions, among a) (start : I s) : I s' := by
  induction run with
  | nil s => exact start
  | @cons s s₁ s₂ a rest first _ ih =>
      have next := preserved s a s₁ (all a List.mem_cons_self) start first
      exact ih (fun b member => all b (List.mem_cons_of_mem a member)) next

theorem mono {step' : σ → α → σ → Prop} (weaker : ∀ s a s', step s a s' → step' s a s')
    {s s' : σ} {actions : List α} (run : Run step s actions s') : Run step' s actions s' := by
  induction run with
  | nil s => exact .nil s
  | cons first _ ih => exact .cons (weaker _ _ _ first) ih

theorem append {s s' s'' : σ} {actions later : List α} (front : Run step s actions s')
    (back : Run step s' later s'') : Run step s (actions ++ later) s'' := by
  induction front with
  | nil s => exact back
  | cons first _ ih => exact .cons first (ih back)

theorem snoc {s s' s'' : σ} {a : α} {actions : List α} (front : Run step s actions s')
    (last : step s' a s'') : Run step s (actions ++ [a]) s'' :=
  front.append (.cons last (.nil s''))

/-- A system that can repeat the labelled steps of another, and to which the others make no
difference, can repeat its runs without them. -/
theorem erase {step' : τ → β → τ → Prop} {R : σ → τ → Prop} {label : α → Option β}
    (silent : ∀ {s s' t a}, label a = none → R s t → step s a s' → R s' t)
    (mirrored : ∀ {s s' t a b}, label a = some b → R s t → step s a s' →
      ∃ t', step' t b t' ∧ R s' t')
    {s s' : σ} {t : τ} {actions : List α} (run : Run step s actions s') (related : R s t) :
    ∃ t', Run step' t (actions.filterMap label) t' ∧ R s' t' := by
  induction run generalizing t with
  | nil s => exact ⟨t, .nil t, related⟩
  | @cons s s₁ s₂ a actions first _ ih =>
      cases labelled : label a with
      | none =>
          rw [List.filterMap_cons_none labelled]
          exact ih (silent labelled related first)
      | some b =>
          obtain ⟨t₁, taken, related₁⟩ := mirrored labelled related first
          obtain ⟨t', rest, ended⟩ := ih related₁
          rw [List.filterMap_cons_some labelled]
          exact ⟨t', .cons taken rest, ended⟩

/-- A system that can repeat every step of another can repeat its runs. -/
theorem mirror {step' : τ → α → τ → Prop} {R : σ → τ → Prop}
    (mirrored : ∀ {s s' t a}, R s t → step s a s' → ∃ t', step' t a t' ∧ R s' t')
    {s s' : σ} {t : τ} {actions : List α} (run : Run step s actions s') (related : R s t) :
    ∃ t', Run step' t actions t' ∧ R s' t' := by
  induction run generalizing t with
  | nil s => exact ⟨t, .nil t, related⟩
  | cons first _ ih =>
      obtain ⟨t₁, taken, related₁⟩ := mirrored related first
      obtain ⟨t', rest, ended⟩ := ih related₁
      exact ⟨t', .cons taken rest, ended⟩

theorem translate {step' : τ → β → τ → Prop} {I : σ → Prop} {view : σ → τ} {label : α → β}
    (preserved : ∀ s a s', I s → step s a s' → I s')
    (translated : ∀ s a s', I s → step s a s' → step' (view s) (label a) (view s'))
    {s s' : σ} {actions : List α} (run : Run step s actions s') (start : I s) :
    Run step' (view s) (actions.map label) (view s') := by
  induction run with
  | nil s => exact .nil (view s)
  | cons first _ ih =>
      exact .cons (translated _ _ _ start first) (ih (preserved _ _ _ start first))

end Run

def replies (request : α → Option ρ) (reply : α → ω) (actions : List α) : List ω :=
  (actions.filter fun a => (request a).isSome).map reply

theorem replies_cons_none {request : α → Option ρ} {reply : α → ω} {a : α} {actions : List α}
    (silent : request a = none) :
    replies request reply (a :: actions) = replies request reply actions := by
  simp [replies, silent]

theorem replies_cons_some {request : α → Option ρ} {reply : α → ω} {a : α} {r : ρ}
    {actions : List α} (visible : request a = some r) :
    replies request reply (a :: actions) = reply a :: replies request reply actions := by
  simp [replies, visible]

/-- What a deterministic service replies to requests made one after the other. -/
def respond (perform : τ → ρ → ω × τ) (t : τ) : List ρ → List ω × τ
  | [] => ([], t)
  | r :: rest =>
      let served := perform t r
      let later := respond perform served.2 rest
      (served.1 :: later.1, later.2)

/-- A system follows a service under a relation: silent actions stay inside it, and requests
get the replies of the service and lead to related states. -/
structure Follows (step : σ → α → σ → Prop) (request : α → Option ρ) (reply : α → ω)
    (perform : τ → ρ → ω × τ) (R : σ → τ → Prop) : Prop where
  silent : ∀ {s s' t a}, R s t → step s a s' → request a = none → R s' t
  matched : ∀ {s s' t a r}, R s t → step s a s' → request a = some r →
    reply a = (perform t r).1 ∧ R s' (perform t r).2

/-- Every run gets the replies of the service, so runs that make the same requests of the same
service get the same replies. -/
theorem Follows.run {step : σ → α → σ → Prop} {request : α → Option ρ} {reply : α → ω}
    {perform : τ → ρ → ω × τ} {R : σ → τ → Prop}
    (follows : Follows step request reply perform R) {s s' : σ} {t : τ} {actions : List α}
    (run : Run step s actions s') (related : R s t) :
    replies request reply actions = (respond perform t (actions.filterMap request)).1 ∧
      R s' (respond perform t (actions.filterMap request)).2 := by
  induction run generalizing t with
  | nil s => exact ⟨rfl, related⟩
  | @cons s s₁ s₂ a rest first later ih =>
      cases seen : request a with
      | none =>
          rw [List.filterMap_cons_none seen, replies_cons_none seen]
          exact ih (follows.silent related first seen)
      | some r =>
          obtain ⟨answer, related₁⟩ := follows.matched related first seen
          obtain ⟨answers, ended⟩ := ih related₁
          rw [List.filterMap_cons_some seen, replies_cons_some seen, answer, answers]
          exact ⟨rfl, ended⟩

end Foundation
