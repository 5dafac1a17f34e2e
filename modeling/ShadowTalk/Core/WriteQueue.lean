import ShadowTalk.Core.LTS

/-!
# One write at a time

A stream takes one write at a time: what is accepted while a write is under way
waits, and the next write starts when the last one has completed. `WriteQueue` is
such a queue; that nothing waits while no write is under way is a field.

* `outstanding_le`, `handed_prefix`, `handed_of_idle`: at most one write is under
  way, what was handed to the stream is a prefix of what was accepted, and all of
  it when no write is under way.
* `lts`: the runs. A program that simulates them (`LTS.Reachable.simulate`) has
  these properties; `accept_idle`, `accept_busy` and `complete_some` are what its
  steps have to match.
-/
namespace ShadowTalk.Core

/-- `done` has been written, `inFlight` is being written. -/
structure WriteQueue (α : Type) where
  done : List α
  inFlight : Option α
  waiting : List α
  idle : inFlight = none → waiting = []

namespace WriteQueue

variable {α : Type} {q q' : WriteQueue α} {m x : α}

def new : WriteQueue α := ⟨[], none, [], fun _ => rfl⟩

/-- What the stream was given so far. -/
def handed (q : WriteQueue α) : List α := q.done ++ q.inFlight.toList

/-- What the queue was given so far. -/
def accepted (q : WriteQueue α) : List α := q.handed ++ q.waiting

/-- The number of writes under way. -/
def outstanding (q : WriteQueue α) : Nat := q.inFlight.toList.length

def accept (q : WriteQueue α) (m : α) : WriteQueue α :=
  match h : q.inFlight with
  | none => ⟨q.done, some m, [], fun h => by cases h⟩
  | some x => ⟨q.done, some x, q.waiting ++ [m], fun h => by cases h⟩

/-- The write under way completes. -/
def complete (q : WriteQueue α) : Option (WriteQueue α) :=
  q.inFlight.map fun x => ⟨q.done ++ [x], q.waiting.head?, q.waiting.tail, fun h => by
    rw [List.head?_eq_none_iff.1 h]; rfl⟩

inductive Op (α : Type) where
  | accept (m : α)
  | complete

def step (q : WriteQueue α) : Op α → Option (WriteQueue α)
  | .accept m => some (q.accept m)
  | .complete => q.complete

def lts (α : Type) : LTS (WriteQueue α) (Op α) := .ofFn (· = new) step

/-! ## What holds of every queue -/

theorem outstanding_le (q : WriteQueue α) : q.outstanding ≤ 1 := by
  unfold outstanding
  cases q.inFlight <;> simp

theorem outstanding_eq_zero : q.outstanding = 0 ↔ q.inFlight = none := by
  unfold outstanding
  cases q.inFlight <;> simp

theorem handed_prefix (q : WriteQueue α) : q.handed <+: q.accepted := List.prefix_append _ _

theorem handed_of_idle (h : q.inFlight = none) : q.handed = q.accepted := by
  unfold accepted
  rw [q.idle h, List.append_nil]

/-! ## What the steps do -/

theorem accept_idle (h : q.inFlight = none) (m : α) :
    (q.accept m).done = q.done ∧ (q.accept m).inFlight = some m ∧ (q.accept m).waiting = [] := by
  unfold accept
  split
  · exact ⟨rfl, rfl, rfl⟩
  · rename_i x hx
    rw [h] at hx
    cases hx

theorem accept_busy (h : q.inFlight = some x) (m : α) :
    (q.accept m).done = q.done ∧ (q.accept m).inFlight = some x ∧
      (q.accept m).waiting = q.waiting ++ [m] := by
  unfold accept
  split
  · rename_i hn
    rw [h] at hn
    cases hn
  · rename_i y hy
    rw [h] at hy
    cases hy
    exact ⟨rfl, rfl, rfl⟩

theorem accept_accepted (q : WriteQueue α) (m : α) : (q.accept m).accepted = q.accepted ++ [m] := by
  unfold accepted handed
  rcases q.inFlight.eq_none_or_eq_some with h | ⟨x, h⟩
  · obtain ⟨h1, h2, h3⟩ := accept_idle h m
    rw [h1, h2, h3, h, q.idle h]
    simp
  · obtain ⟨h1, h2, h3⟩ := accept_busy h m
    rw [h1, h2, h3, h]
    simp

theorem complete_some (h : q.inFlight = some x) : ∃ q', q.complete = some q' ∧
    q'.done = q.done ++ [x] ∧ q'.inFlight = q.waiting.head? ∧ q'.waiting = q.waiting.tail := by
  unfold complete
  rw [h]
  exact ⟨_, rfl, rfl, rfl, rfl⟩

theorem complete_accepted (h : q.complete = some q') : q'.accepted = q.accepted := by
  obtain ⟨x, hx, -⟩ := Option.map_eq_some_iff.1 h
  obtain ⟨q₁, hq, h1, h2, h3⟩ := complete_some hx
  rw [h, Option.some.injEq] at hq
  subst hq
  unfold accepted handed
  rw [h1, h2, h3, hx]
  cases q.waiting <;> simp

end WriteQueue
end ShadowTalk.Core
