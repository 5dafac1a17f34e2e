import Mathlib.Algebra.Ring.Nat
import Mathlib.Data.List.Basic
import Mathlib.Tactic.Common

/-!
# Objects in numbered slots

A program that makes objects and refers to them by pointers is modelled with a
list of all objects it has made; a pointer is the number of a slot. Objects are
made at the end of the list and changed by `List.modify`.

* `map_modify`: a view of the objects follows the change.
* `countP_modify`, `sum_map_modify`: how the number of objects with a property, or a sum
  over all of them, changes.
* `sublist_of_increasing`: the objects in slots with increasing numbers.
-/
namespace ShadowTalk.Core.Slots

variable {α β : Type}

theorem map_modify {f : α → α} {f' : β → β} {g : α → β} (h : ∀ x, g (f x) = f' (g x))
    (l : List α) (i : Nat) : (l.modify i f).map g = (l.map g).modify i f' := by
  apply List.ext_getElem?
  intro k
  simp only [List.getElem?_map, List.getElem?_modify]
  cases l[k]? with
  | none => split <;> rfl
  | some x =>
    split
    · simp [h]
    · rfl

/-- A view that the change does not touch. -/
theorem map_modify_of_eq {f : α → α} {g : α → β} (h : ∀ x, g (f x) = g x) (l : List α) (i : Nat) :
    (l.modify i f).map g = l.map g := by
  have hid : ∀ x, g (f x) = id (g x) := h
  rw [map_modify hid, List.modify_id]

theorem countP_modify (q : α → Bool) (f : α → α) {l : List α} {i : Nat} {x : α}
    (h : l[i]? = some x) :
    (l.modify i f).countP q + (q x).toNat = l.countP q + (q (f x)).toNat := by
  induction l generalizing i with
  | nil => simp at h
  | cons y l ih =>
    cases i with
    | zero =>
      simp only [List.getElem?_cons_zero, Option.some.injEq] at h
      subst h
      rw [List.modify_zero_cons, List.countP_cons, List.countP_cons]
      cases q y <;> cases q (f y) <;> simp
    | succ i =>
      rw [List.modify_succ_cons, List.countP_cons, List.countP_cons]
      have := ih (by simpa using h)
      omega

/-- How a sum over the objects changes. -/
theorem sum_map_modify (g : α → Nat) (f : α → α) {l : List α} {i : Nat} {x : α}
    (h : l[i]? = some x) :
    ((l.modify i f).map g).sum + g x = (l.map g).sum + g (f x) := by
  induction l generalizing i with
  | nil => simp at h
  | cons y l ih =>
    cases i with
    | zero =>
      simp only [List.getElem?_cons_zero, Option.some.injEq] at h
      subst h
      simp only [List.modify_zero_cons, List.map_cons, List.sum_cons]
      omega
    | succ i =>
      have := ih (by simpa using h)
      simp only [List.modify_succ_cons, List.map_cons, List.sum_cons]
      omega

theorem sum_map_set (g : α → Nat) {l : List α} {i : Nat} {x : α} (h : l[i]? = some x) (y : α) :
    ((l.set i y).map g).sum + g x = (l.map g).sum + g y := by
  rw [List.set_eq_modify]
  exact sum_map_modify g (fun _ => y) h

/-- A view in which the new object is like the old one. -/
theorem map_set_of_eq {g : α → β} {l : List α} {i : Nat} {x y : α} (h : l[i]? = some x)
    (hg : g y = g x) : (l.set i y).map g = l.map g := by
  apply List.ext_getElem?
  intro k
  simp only [List.getElem?_map, List.getElem?_set]
  by_cases hk : i = k
  · subst hk
    obtain ⟨hlt, rfl⟩ := List.getElem?_eq_some_iff.1 h
    simp [hlt, hg]
  · simp [hk]

/-- Slot `i` keeps a property that the change keeps where it is made. -/
theorem exists_set {P : α → Prop} {l : List α} {i k : Nat} {x y : α}
    (h : ∃ z, l[i]? = some z ∧ P z) (hk : l[k]? = some x) (hP : P x → P y) :
    ∃ z, (l.set k y)[i]? = some z ∧ P z := by
  obtain ⟨z, hz, hPz⟩ := h
  by_cases hik : k = i
  · subst hik
    obtain rfl : z = x := Option.some.inj (hz.symm.trans hk)
    obtain ⟨hlt, -⟩ := List.getElem?_eq_some_iff.1 hz
    exact ⟨y, by simp [hlt], hP hPz⟩
  · exact ⟨z, by rwa [List.getElem?_set_ne hik], hPz⟩

/-- A slot that is there already stays where it is when an object is made. -/
theorem getElem?_append_of_some {l l' : List α} {i : Nat} {x : α} (h : l[i]? = some x) :
    (l ++ l')[i]? = some x := by
  obtain ⟨hi, -⟩ := List.getElem?_eq_some_iff.1 h
  rw [List.getElem?_append_left hi, h]

/-- What holds of all objects holds of them after a change that keeps it. -/
theorem forall_mem_modify {P : α → Prop} {f : α → α} {l : List α} {i : Nat} {x : α}
    (h : ∀ y ∈ l, P y) (hi : l[i]? = some x) (hx : P (f x)) : ∀ y ∈ l.modify i f, P y := by
  intro y hy
  obtain ⟨k, hk⟩ := List.mem_iff_getElem?.1 hy
  rw [List.getElem?_modify] at hk
  by_cases hik : i = k
  · subst hik
    rw [hi] at hk
    simp only [if_true, Option.map_eq_map, Option.map_some, Option.some.injEq] at hk
    rw [← hk]
    exact hx
  · simp only [hik, if_false, Option.map_eq_map, Option.map_id'] at hk
    exact h y (List.mem_of_getElem? (by simpa using hk))

/-- The slots after a change. -/
theorem getElem?_modify_some {f : α → α} {l : List α} {i k : Nat} {y : α}
    (h : (l.modify i f)[k]? = some y) :
    ∃ x, l[k]? = some x ∧ y = if i = k then f x else x := by
  rw [List.getElem?_modify] at h
  cases hx : l[k]? with
  | none => simp [hx] at h
  | some x =>
    refine ⟨x, rfl, ?_⟩
    rw [hx] at h
    simpa using h.symm

/-- A property that the change keeps, whichever object it is made to. -/
theorem forall_mem_modify_of_keeps {P : α → Prop} {f : α → α} (hf : ∀ x, P x → P (f x))
    {l : List α} (h : ∀ x ∈ l, P x) (i : Nat) : ∀ x ∈ l.modify i f, P x := by
  intro y hy
  obtain ⟨k, hk⟩ := List.mem_iff_getElem?.1 hy
  obtain ⟨x, hx, rfl⟩ := getElem?_modify_some hk
  have hPx := h x (List.mem_of_getElem? hx)
  split
  · exact hf x hPx
  · exact hPx

/-- What a slot is set to. -/
theorem mem_modify_const {l : List α} {i : Nat} {x : α} (h : l[i]? = some x) (y : α) :
    y ∈ l.modify i fun _ => y := by
  refine List.mem_of_getElem? (i := i) ?_
  rw [List.getElem?_modify, h]
  simp

/-- What is in the slots `ks`, whose numbers increase from `n` on. -/
theorem sublist_of_increasing {l xs : List α} {ks : List Nat} {n : Nat} (hn : ∀ k ∈ ks, n ≤ k)
    (hk : ks.Pairwise (· < ·)) (hx : ks.map (fun k => l[k]?) = xs.map some) :
    xs.Sublist (l.drop n) := by
  induction ks generalizing n xs with
  | nil =>
    obtain rfl : xs = [] := by simpa using hx.symm
    exact List.nil_sublist _
  | cons k ks ih =>
    cases xs with
    | nil => cases hx
    | cons x xs =>
      obtain ⟨hkx, hx⟩ := List.cons.inj hx
      obtain ⟨hlt, hk⟩ := List.pairwise_cons.1 hk
      have hrest := ih (fun j hj => hlt j hj) hk hx
      -- slot `k` comes first in what is left from it on
      have hdrop : l.drop k = x :: l.drop (k + 1) := by
        obtain ⟨hlen, rfl⟩ := List.getElem?_eq_some_iff.1 hkx
        exact List.drop_eq_getElem_cons hlen
      have hfrom : (x :: xs).Sublist (l.drop k) := hdrop ▸ hrest.cons_cons x
      have hle : n ≤ k := hn k List.mem_cons_self
      rw [← Nat.add_sub_cancel' hle, ← List.drop_drop] at hfrom
      exact hfrom.trans (List.drop_sublist _ _)

end ShadowTalk.Core.Slots
