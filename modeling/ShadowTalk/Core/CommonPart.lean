import Mathlib.Data.List.Infix
import Mathlib.Order.Lattice
import Mathlib.Tactic.Common

/-!
# Comparing what two lists have in common

Two lists are compared up to the end of the shorter one. `Below` is what the
comparison decides: it is transitive and asymmetric, and relates two lists unless
one is a prefix of the other (`below_or_prefix`).
-/
namespace ShadowTalk.Core

variable {α : Type} [LinearOrder α]

/-- The first of two lists is smaller where they first differ. -/
inductive Below : List α → List α → Prop
  | head {u v : α} (h : u < v) (x y : List α) : Below (u :: x) (v :: y)
  | tail (u : α) {x y : List α} (h : Below x y) : Below (u :: x) (u :: y)

namespace Below

variable {x y z : List α}

theorem asymm (h : Below x y) : ¬ Below y x := by
  induction h with
  | head h x y =>
    intro h'
    cases h' with
    | head h' => exact lt_asymm h h'
    | tail => exact lt_irrefl _ h
  | tail u _ ih =>
    intro h'
    cases h' with
    | head h' => exact lt_irrefl _ h'
    | tail _ h' => exact ih h'

theorem trans (h : Below x y) (h' : Below y z) : Below x z := by
  induction h generalizing z with
  | head h x y =>
    cases h' with
    | head h' => exact .head (lt_trans h h') _ _
    | tail => exact .head h _ _
  | tail u _ ih =>
    cases h' with
    | head h' => exact .head h' _ _
    | tail _ h' => exact .tail u (ih h')

theorem not_isPrefix (h : Below x y) : ¬ x <+: y ∧ ¬ y <+: x := by
  induction h with
  | head h x y =>
    simp only [List.cons_prefix_cons, not_and]
    exact ⟨fun he => absurd he (ne_of_lt h), fun he => absurd he (ne_of_gt h)⟩
  | tail u _ ih =>
    simp only [List.cons_prefix_cons, true_and]
    exact ih

end Below

theorem below_or_isPrefix (x y : List α) : Below x y ∨ Below y x ∨ x <+: y ∨ y <+: x := by
  induction x generalizing y with
  | nil => exact .inr (.inr (.inl List.nil_prefix))
  | cons u x ih =>
    cases y with
    | nil => exact .inr (.inr (.inr List.nil_prefix))
    | cons v y =>
      rcases lt_trichotomy u v with huv | rfl | hvu
      · exact .inl (.head huv x y)
      · simp only [List.cons_prefix_cons, true_and]
        rcases ih y with h | h | h
        · exact .inl (.tail u h)
        · exact .inr (.inl (.tail u h))
        · exact .inr (.inr h)
      · exact .inr (.inl (.head hvu y x))

/-- The comparison. -/
def compareCommon : List α → List α → Ordering
  | u :: x, v :: y => if u < v then .lt else if v < u then .gt else compareCommon x y
  | _, _ => .eq

theorem compareCommon_eq_lt {x y : List α} : compareCommon x y = .lt ↔ Below x y := by
  induction x generalizing y with
  | nil => exact iff_of_false (by simp [compareCommon]) (fun h => by cases h)
  | cons u x ih =>
    cases y with
    | nil => exact iff_of_false (by simp [compareCommon]) (fun h => by cases h)
    | cons v y =>
      rw [compareCommon]
      rcases lt_trichotomy u v with huv | rfl | hvu
      · rw [if_pos huv]
        exact iff_of_true rfl (.head huv x y)
      · rw [if_neg (lt_irrefl u), if_neg (lt_irrefl u), ih]
        constructor
        · exact Below.tail u
        · intro h
          cases h with
          | head h => exact absurd h (lt_irrefl u)
          | tail _ h => exact h
      · rw [if_neg (lt_asymm hvu), if_pos hvu]
        refine iff_of_false (by simp) fun h => ?_
        cases h with
        | head h => exact lt_asymm hvu h
        | tail => exact lt_irrefl _ hvu

/-- Lists of one length have nothing but what they have in common. -/
theorem compareCommon_eq_eq {x y : List α} (hlen : x.length = y.length) :
    compareCommon x y = .eq ↔ x = y := by
  induction x generalizing y with
  | nil =>
    obtain rfl : y = [] := List.length_eq_zero_iff.1 hlen.symm
    exact iff_of_true rfl rfl
  | cons u x ih =>
    cases y with
    | nil => cases hlen
    | cons v y =>
      rw [List.length_cons, List.length_cons] at hlen
      rw [compareCommon]
      rcases lt_trichotomy u v with huv | rfl | hvu
      · rw [if_pos huv]
        exact iff_of_false (by simp) (by simp [ne_of_lt huv])
      · rw [if_neg (lt_irrefl u), if_neg (lt_irrefl u), ih (Nat.succ.inj hlen)]
        simp
      · rw [if_neg (lt_asymm hvu), if_pos hvu]
        exact iff_of_false (by simp) (by simp [ne_of_gt hvu])

/-- What is behind the end of the shorter list does not count. -/
theorem compareCommon_take {x y : List α} {n : Nat} (h : min x.length y.length ≤ n) :
    compareCommon (x.take n) (y.take n) = compareCommon x y := by
  induction x generalizing y n with
  | nil => simp [compareCommon]
  | cons u x ih =>
    cases y with
    | nil => simp [compareCommon]
    | cons v y =>
      simp only [List.length_cons] at h
      obtain ⟨m, rfl⟩ : ∃ m, n = m + 1 := ⟨n - 1, by omega⟩
      rw [List.take_succ_cons, List.take_succ_cons, compareCommon, compareCommon, ih (by omega)]

end ShadowTalk.Core
