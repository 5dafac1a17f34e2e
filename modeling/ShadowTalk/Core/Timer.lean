import Mathlib.Logic.Basic

/-!
# Deadline timers (`boost::asio::deadline_timer`)

`async_wait` leaves a wait pending. `cancel` (and `expires_from_now`, which
cancels first) aborts it: its handler runs with `operation_aborted`. A wait that
has expired can no longer be aborted: its handler is queued and will run with
success. A handler that runs with `operation_aborted` does nothing in the
programs modelled here, so an aborted wait is simply dropped.

The argument `α` is what the handler captured.
-/
namespace ShadowTalk.Core

structure Timer (α : Type) where
  /-- the pending wait -/
  armed : Option α
  /-- expired waits whose handlers have not run yet, oldest first -/
  queued : List α
  deriving DecidableEq, Repr

namespace Timer

variable {α : Type}

def new : Timer α := ⟨none, []⟩

/-- `cancel()`. -/
def cancel (t : Timer α) : Timer α := { t with armed := none }

/-- `expires_from_now(..)` followed by `async_wait(..)`. -/
def asyncWait (t : Timer α) (x : α) : Timer α := { t with armed := some x }

/-- The deadline passes. -/
def expire (t : Timer α) : Option (Timer α) :=
  t.armed.map fun x => ⟨none, t.queued ++ [x]⟩

/-- The oldest queued handler runs. -/
def fire (t : Timer α) : Option (α × Timer α) :=
  match t.queued with
  | [] => none
  | x :: xs => some (x, { t with queued := xs })

/-- What a later handler can still be given: the pending wait and the queued
handlers. -/
def pending (t : Timer α) : List α := t.armed.toList ++ t.queued

@[simp] theorem cancel_armed (t : Timer α) : t.cancel.armed = none := rfl
@[simp] theorem asyncWait_armed (t : Timer α) (x : α) : (t.asyncWait x).armed = some x := rfl
@[simp] theorem asyncWait_queued (t : Timer α) (x : α) : (t.asyncWait x).queued = t.queued := rfl

theorem mem_pending {t : Timer α} {x : α} : x ∈ t.pending ↔ t.armed = some x ∨ x ∈ t.queued := by
  simp [pending]

theorem expire_eq_some {t t' : Timer α} (h : t.expire = some t') :
    ∃ x, t.armed = some x ∧ t' = ⟨none, t.queued ++ [x]⟩ := by
  unfold expire at h
  cases ha : t.armed with
  | none => simp [ha] at h
  | some x => exact ⟨x, rfl, by simpa [ha] using h.symm⟩

theorem fire_eq_some {t t' : Timer α} {x : α} (h : t.fire = some (x, t')) :
    t.queued = x :: t'.queued ∧ t'.armed = t.armed := by
  unfold fire at h
  cases hq : t.queued with
  | nil => simp [hq] at h
  | cons y ys =>
    simp only [hq, Option.some.injEq, Prod.mk.injEq] at h
    obtain ⟨rfl, rfl⟩ := h
    exact ⟨rfl, rfl⟩

theorem mem_pending_expire {t : Timer α} {x y : α} (h : t.armed = some x) :
    y ∈ (⟨none, t.queued ++ [x]⟩ : Timer α).pending ↔ y ∈ t.pending := by
  simp [mem_pending, h, or_comm, eq_comm]

/-- A handler runs and waits again for what it captured. -/
theorem mem_pending_of_fire {t : Timer α} {x y : α} {q : List α} (h : t.queued = x :: q)
    (hy : y ∈ (⟨some x, q⟩ : Timer α).pending) : y ∈ t.pending := by
  rw [mem_pending] at hy ⊢
  rw [h]
  exact .inr (by simpa [eq_comm] using hy)

/-! ## Changing what the handlers captured -/

def map {β : Type} (f : α → β) (t : Timer α) : Timer β := ⟨t.armed.map f, t.queued.map f⟩

section
variable {β : Type} (f : α → β) (t : Timer α)

@[simp] theorem map_cancel : t.cancel.map f = (t.map f).cancel := rfl

theorem map_expire : (t.map f).expire = t.expire.map fun t => t.map f := by
  cases h : t.armed <;> simp [expire, map, h]

theorem map_fire : (t.map f).fire = t.fire.map fun r => (f r.1, r.2.map f) := by
  cases h : t.queued <;> simp [fire, map, h]

end

end Timer
end ShadowTalk.Core
