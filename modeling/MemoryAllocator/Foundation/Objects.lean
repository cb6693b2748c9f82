import MemoryAllocator.Foundation.Runs
import MemoryAllocator.Foundation.Spans

/-! A store of objects, as a language describes the memory a program obtains while it runs:
arrays of values at disjoint addresses, and nothing about how the store is organised. -/
namespace Foundation

variable {β : Type}

structure Object (β : Type) where
  base : Nat
  values : List β

inductive ObjectEvent (β : Type) where
  | create (base length : Nat)
  | drop (base : Nat)
  | put (address : Nat) (value : β)
  | idle

namespace Object

def span (o : Object β) : Span := ⟨o.base, o.values.length⟩

def put (address : Nat) (value : β) (o : Object β) : Object β :=
  if o.base ≤ address then { o with values := o.values.set (address - o.base) value } else o

end Object

/-- A new object meets no other and may hold anything; values are put into objects only. -/
inductive ObjectStep : List (Object β) → ObjectEvent β → List (Object β) → Prop
  | create {objects : List (Object β)} {o : Object β} : 0 < o.values.length →
      (∀ p ∈ objects, o.span.Apart p.span) →
      ObjectStep objects (.create o.base o.values.length) (o :: objects)
  | drop {objects : List (Object β)} {o : Object β} : o ∈ objects →
      ObjectStep objects (.drop o.base) (objects.filter fun p => p.base != o.base)
  | put {objects : List (Object β)} {o : Object β} {address : Nat} {value : β} : o ∈ objects →
      o.span.start ≤ address → address < o.span.stop →
      ObjectStep objects (.put address value) (objects.map (Object.put address value))
  | idle {objects : List (Object β)} : ObjectStep objects .idle objects

/-- What an address holds after an event, if it stays part of one object. -/
def ObjectEvent.leaves (address : Nat) (held : β) : ObjectEvent β → β
  | .put x value => if x = address then value else held
  | _ => held

/-- The value put last at an address, or what it held first. -/
def lastPut (address : Nat) (first : β) (events : List (ObjectEvent β)) : β :=
  events.foldl (ObjectEvent.leaves address) first

@[simp] theorem lastPut_nil (address : Nat) (first : β) : lastPut address first [] = first := rfl

@[simp] theorem lastPut_cons (address : Nat) (first : β) (event : ObjectEvent β)
    (events : List (ObjectEvent β)) : lastPut address first (event :: events) =
      lastPut address (event.leaves address first) events := rfl

theorem mapIdx_self (values : List β) : values.mapIdx (fun _ first => first) = values := by
  apply List.ext_getElem?
  intro i
  simp

namespace Object

/-- The object after some events, none of which drops it. -/
def after (events : List (ObjectEvent β)) (o : Object β) : Object β :=
  ⟨o.base, o.values.mapIdx fun i first => lastPut (o.base + i) first events⟩

@[simp] theorem after_base (events : List (ObjectEvent β)) (o : Object β) :
    (o.after events).base = o.base := rfl

@[simp] theorem put_base (address : Nat) (value : β) (o : Object β) :
    (o.put address value).base = o.base := by
  unfold put
  split <;> rfl

@[simp] theorem put_span (address : Nat) (value : β) (o : Object β) :
    (o.put address value).span = o.span := by
  unfold put
  split
  · simp only [span, List.length_set]
  · rfl

@[simp] theorem after_nil (o : Object β) : o.after [] = o := by
  simp only [after, lastPut_nil, mapIdx_self]

theorem after_cons (event : ObjectEvent β) (events : List (ObjectEvent β)) (o : Object β) :
    o.after (event :: events) = (o.after [event]).after events := by
  simp only [after, List.mapIdx_mapIdx, Function.comp_def, lastPut_cons, lastPut_nil]

theorem after_quiet {event : ObjectEvent β}
    (quiet : ∀ address held, event.leaves address held = held) (o : Object β) :
    o.after [event] = o := by
  simp only [after, lastPut_cons, lastPut_nil, quiet, mapIdx_self]

theorem after_put (address : Nat) (value : β) (o : Object β) :
    o.after [.put address value] = o.put address value := by
  obtain ⟨base, values⟩ := o
  by_cases reached : base ≤ address
  · simp only [after, put, if_pos reached, lastPut_cons, lastPut_nil, ObjectEvent.leaves]
    refine congrArg _ (List.ext_getElem? fun i => ?_)
    rw [List.getElem?_mapIdx, List.getElem?_set]
    by_cases here : address - base = i
    · obtain rfl : address = base + i := by omega
      by_cases inside : i < values.length
      · simp [inside]
      · simp [inside]
    · have other : address ≠ base + i := by omega
      simp [here, other]
  · have other : ∀ i, address ≠ base + i := by omega
    simp only [after, put, if_neg reached, lastPut_cons, lastPut_nil, ObjectEvent.leaves, other,
      if_false, mapIdx_self]

end Object

section
variable {objects objects' : List (Object β)} {event : ObjectEvent β}

/-- A step does to an object what its event says, unless it drops it. -/
theorem ObjectStep.keeps (step : ObjectStep objects event objects') {o : Object β}
    (member : o ∈ objects) (kept : event ≠ .drop o.base) : o.after [event] ∈ objects' := by
  cases step with
  | create _ _ =>
      rw [Object.after_quiet fun _ _ => rfl]
      exact List.mem_cons_of_mem _ member
  | drop =>
      rw [Object.after_quiet fun _ _ => rfl]
      refine List.mem_filter.mpr ⟨member, ?_⟩
      exact bne_iff_ne.mpr fun same => kept (congrArg _ same.symm)
  | put =>
      rw [Object.after_put]
      exact List.mem_map_of_mem member
  | idle =>
      rw [Object.after_quiet fun _ _ => rfl]
      exact member

theorem ObjectStep.run_keeps {events : List (ObjectEvent β)}
    (run : Run ObjectStep objects events objects') {o : Object β} (member : o ∈ objects)
    (kept : .drop o.base ∉ events) : o.after events ∈ objects' := by
  induction run generalizing o with
  | nil => rwa [Object.after_nil]
  | @cons objects between objects' event events first _ ih =>
      obtain ⟨here, later⟩ := not_or.mp (List.mem_cons.not.mp kept)
      rw [Object.after_cons]
      exact ih (first.keeps member fun dropped => here dropped.symm) later

/-- Objects that share no address. -/
def Separate (objects : List (Object β)) : Prop :=
  objects.Pairwise fun o p => o.span.Apart p.span

theorem ObjectStep.separate (step : ObjectStep objects event objects')
    (separate : Separate objects) : Separate objects' := by
  cases step with
  | create _ fresh => exact List.pairwise_cons.mpr ⟨fresh, separate⟩
  | drop => exact separate.sublist List.filter_sublist
  | put =>
      refine List.pairwise_map.mpr (List.Pairwise.imp ?_ separate)
      intro p q apart
      rwa [Object.put_span, Object.put_span]
  | idle => exact separate

end

end Foundation
