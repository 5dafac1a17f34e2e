import Mathlib.Data.List.Basic
import Mathlib.Tactic.Common

/-!
# A mailbox with one wake-up for each item

Whoever puts an item into the mailbox posts a wake-up afterwards. A handler that is started
by a wake-up takes items out until there are none, or until it fails at one of them. That
there are enough wake-ups for the items is a field.

* `given_put`, `given_take`, ..: items are taken in the order they were put, each once.
* `awake_of_item`: as long as there is an item, somebody will come for it, even if handlers
  fail.
* `taken_of_idle`: when nobody is at work, everything has been taken.
* `work`: what is left to do, which all but `put` make less.
-/
namespace ShadowTalk.Core

/-- `taken` has been taken out, `items` is in the mailbox. -/
structure Mailbox (α : Type) where
  taken : List α
  items : List α
  /-- puts whose wake-up is not posted yet -/
  posting : Nat
  /-- wake-ups that have not started a handler -/
  wakeups : Nat
  /-- a handler is at work -/
  running : Bool
  awake : items.length ≤ posting + wakeups + running.toNat

namespace Mailbox

variable {α : Type} {m m' : Mailbox α} {x : α} {again : Bool}

def new : Mailbox α := ⟨[], [], 0, 0, false, Nat.le_refl 0⟩

/-- All that has been put in. -/
def given (m : Mailbox α) : List α := m.taken ++ m.items

def put (m : Mailbox α) (x : α) : Mailbox α :=
  { m with
    items := m.items ++ [x]
    posting := m.posting + 1
    awake := by
      have := m.awake
      rw [List.length_append, List.length_singleton]
      omega }

def post (m : Mailbox α) : Option (Mailbox α) :=
  if h : 0 < m.posting then
    some { m with
      posting := m.posting - 1
      wakeups := m.wakeups + 1
      awake := by
        have := m.awake
        omega }
  else none

def start (m : Mailbox α) : Option (Mailbox α) :=
  if h : m.running = false ∧ 0 < m.wakeups then
    some { m with
      wakeups := m.wakeups - 1
      running := true
      awake := by
        have := m.awake
        rw [h.1, Bool.toNat_false] at this
        rw [Bool.toNat_true]
        omega }
  else none

/-- The handler at work takes the first item, and goes on or not. -/
def take (m : Mailbox α) (again : Bool) : Option (α × Mailbox α) :=
  match h : m.items with
  | [] => none
  | x :: items =>
    if m.running then
      some (x, { m with
        taken := m.taken ++ [x]
        items := items
        running := again
        awake := by
          have hle := m.awake
          have := Bool.toNat_le m.running
          rw [h, List.length_cons] at hle
          omega })
    else none

/-- The handler finds nothing more. -/
def finish (m : Mailbox α) : Option (Mailbox α) :=
  if h : m.running = true ∧ m.items = [] then
    some { m with
      running := false
      awake := by
        rw [h.2]
        exact Nat.zero_le _ }
  else none

/-- Nobody is about to take anything. -/
structure Idle (m : Mailbox α) : Prop where
  posting : m.posting = 0
  wakeups : m.wakeups = 0
  running : m.running = false

/-! ## What the operations do -/

@[simp] theorem taken_put (m : Mailbox α) (x : α) : (m.put x).taken = m.taken := rfl

theorem given_put (m : Mailbox α) (x : α) : (m.put x).given = m.given ++ [x] :=
  (List.append_assoc _ _ _).symm

theorem post_of_pos (h : 0 < m.posting) : ∃ m', m.post = some m' := ⟨_, dif_pos h⟩

theorem start_of_wakeup (hr : m.running = false) (h : 0 < m.wakeups) : ∃ m', m.start = some m' :=
  ⟨_, dif_pos ⟨hr, h⟩⟩

theorem finish_of_empty (hr : m.running = true) (h : m.items = []) : ∃ m', m.finish = some m' :=
  ⟨_, dif_pos ⟨hr, h⟩⟩

theorem take_of_item (again : Bool) (hr : m.running = true) {xs : List α}
    (h : m.items = x :: xs) : ∃ m', m.take again = some (x, m') := by
  unfold take
  split
  · rename_i hnil
    rw [h] at hnil
    cases hnil
  · rename_i y ys hcons
    rw [h] at hcons
    cases hcons
    exact ⟨_, if_pos hr⟩

theorem post_eq_some (h : m.post = some m') : m'.taken = m.taken ∧ m'.items = m.items := by
  unfold post at h
  split at h
  · cases h
    exact ⟨rfl, rfl⟩
  · cases h

theorem start_eq_some (h : m.start = some m') : m'.taken = m.taken ∧ m'.items = m.items := by
  unfold start at h
  split at h
  · cases h
    exact ⟨rfl, rfl⟩
  · cases h

theorem finish_eq_some (h : m.finish = some m') : m'.taken = m.taken ∧ m'.items = m.items := by
  unfold finish at h
  split at h
  · cases h
    exact ⟨rfl, rfl⟩
  · cases h

theorem items_of_finish (h : m.finish = some m') : m.items = [] := by
  unfold finish at h
  split at h
  · rename_i hf
    exact hf.2
  · cases h

theorem take_eq_some (h : m.take again = some (x, m')) :
    m.running = true ∧ m'.taken = m.taken ++ [x] ∧ m.items = x :: m'.items ∧
      m'.running = again := by
  unfold take at h
  split at h
  · cases h
  · rename_i y items hi
    split at h
    · rename_i hr
      cases h
      exact ⟨hr, rfl, hi, rfl⟩
    · cases h

theorem given_take (h : m.take again = some (x, m')) : m'.given = m.given := by
  obtain ⟨-, ht, hi, -⟩ := take_eq_some h
  rw [given, given, ht, hi, List.append_assoc, List.singleton_append]

/-! ## Nothing is left behind -/

/-- As long as there is an item, somebody will come for it. -/
theorem awake_of_item (h : m.items ≠ []) : 0 < m.posting ∨ 0 < m.wakeups ∨ m.running = true := by
  have hpos := List.length_pos_of_ne_nil h
  have hle := m.awake
  cases hr : m.running with
  | true => exact .inr (.inr rfl)
  | false =>
    rw [hr, Bool.toNat_false] at hle
    omega

/-- Posting, starting and finishing a handler, and taking an item, each count. -/
def work (m : Mailbox α) : Nat :=
  3 * m.posting + 2 * m.wakeups + 2 * m.items.length + m.running.toNat

theorem work_post (h : m.post = some m') : m'.work < m.work := by
  unfold post at h
  split at h
  · cases h
    show 3 * (m.posting - 1) + 2 * (m.wakeups + 1) + 2 * m.items.length + m.running.toNat < m.work
    unfold work
    omega
  · cases h

theorem work_start (h : m.start = some m') : m'.work < m.work := by
  unfold start at h
  split at h
  · rename_i hs
    cases h
    show 3 * m.posting + 2 * (m.wakeups - 1) + 2 * m.items.length + 1 < m.work
    unfold work
    omega
  · cases h

theorem work_finish (h : m.finish = some m') : m'.work < m.work := by
  unfold finish at h
  split at h
  · rename_i hs
    cases h
    show 3 * m.posting + 2 * m.wakeups + 2 * m.items.length + 0 < m.work
    unfold work
    rw [hs.1, Bool.toNat_true]
    exact Nat.lt_succ_self _
  · cases h

theorem work_take (h : m.take again = some (x, m')) : m'.work < m.work := by
  have hle : m'.posting = m.posting ∧ m'.wakeups = m.wakeups := by
    unfold take at h
    split at h
    · cases h
    · split at h
      · cases h
        exact ⟨rfl, rfl⟩
      · cases h
  obtain ⟨hr, -, hi, -⟩ := take_eq_some h
  have := Bool.toNat_le m'.running
  unfold work
  rw [hle.1, hle.2, hi, hr, List.length_cons, Bool.toNat_true]
  omega

/-- Whoever is not idle can go on. -/
theorem not_idle (h : ¬ m.Idle) :
    0 < m.posting ∨ m.running = true ∨ m.running = false ∧ 0 < m.wakeups := by
  cases hr : m.running with
  | true => exact .inr (.inl rfl)
  | false =>
    by_cases hp : 0 < m.posting
    · exact .inl hp
    · by_cases hw : 0 < m.wakeups
      · exact .inr (.inr ⟨rfl, hw⟩)
      · exact absurd ⟨Nat.eq_zero_of_not_pos hp, Nat.eq_zero_of_not_pos hw, hr⟩ h

theorem taken_of_idle (h : m.Idle) : m.taken = m.given := by
  have hi : m.items = [] := by
    by_contra hne
    rcases awake_of_item hne with hp | hw | hr
    · exact absurd h.posting (Nat.ne_of_gt hp)
    · exact absurd h.wakeups (Nat.ne_of_gt hw)
    · rw [h.running] at hr
      cases hr
  rw [given, hi, List.append_nil]

end Mailbox
end ShadowTalk.Core
