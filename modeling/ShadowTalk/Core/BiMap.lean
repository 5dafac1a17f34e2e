import Mathlib.Data.List.Nodup
import Mathlib.Tactic.Common

/-!
# Two-sided maps (`boost::bimap`)

A set of pairs in which neither a left key nor a right key occurs twice; the right keys
carry an object. That both sides are unique is a field, so every map is well formed.

What is documented of a `bimap<set_of<A>, set_of<B>>`, and all that is used of it:

* keys are the same if neither is less than the other;
* `insert` of a pair does nothing if its left key or its right key is there (as its
  definition says), and adds the pair otherwise (`mem_insert`);
* `left.find` and `right.find` give the pair with a key, if there is one
  (`findLeft_eq_some`, `findRight_eq_some`);
* `right.erase` removes the pair with a right key, and no other (`mem_eraseRight`).

The order of the pairs, in which only a traversal would see them, is not kept.
-/
namespace ShadowTalk.Core

/-- Pairs of a left key, and a right key with its object. -/
structure BiMap (α κ ν : Type) where
  entries : List (α × κ × ν)
  left_nodup : (entries.map Prod.fst).Nodup
  right_nodup : (entries.map fun e => e.2.1).Nodup

namespace BiMap

variable {α κ ν : Type}

def empty : BiMap α κ ν := ⟨[], .nil, .nil⟩

/-- `a` and `k` are paired. -/
def Rel (m : BiMap α κ ν) (a : α) (k : κ) : Prop := ∃ v, (a, k, v) ∈ m.entries

theorem left_unique {m : BiMap α κ ν} {a : α} {x y : κ × ν} (hx : (a, x) ∈ m.entries)
    (hy : (a, y) ∈ m.entries) : x = y :=
  congrArg Prod.snd (List.inj_on_of_nodup_map m.left_nodup hx hy rfl)

theorem right_unique {m : BiMap α κ ν} {k : κ} {a b : α} {v w : ν} (hx : (a, k, v) ∈ m.entries)
    (hy : (b, k, w) ∈ m.entries) : a = b ∧ v = w := by
  have := List.inj_on_of_nodup_map m.right_nodup hx hy rfl
  cases this
  exact ⟨rfl, rfl⟩

section
variable [DecidableEq α]

/-- `left.find(a)` -/
def findLeft (m : BiMap α κ ν) (a : α) : Option (κ × ν) :=
  (m.entries.find? fun e => e.1 == a).map Prod.snd

theorem findLeft_eq_some {m : BiMap α κ ν} {a : α} {x : κ × ν} :
    m.findLeft a = some x ↔ (a, x) ∈ m.entries := by
  constructor
  · intro h
    obtain ⟨e, he, rfl⟩ := Option.map_eq_some_iff.1 h
    obtain rfl : e.1 = a := by simpa using List.find?_some he
    exact List.mem_of_find?_eq_some he
  · intro h
    cases hf : m.entries.find? fun e => e.1 == a with
    | none => exact absurd (List.find?_eq_none.1 hf _ h) (by simp)
    | some e =>
      obtain rfl : e.1 = a := by simpa using List.find?_some hf
      rw [findLeft, hf, Option.map_some, left_unique (List.mem_of_find?_eq_some hf) h]

theorem findLeft_eq_none {m : BiMap α κ ν} {a : α} :
    m.findLeft a = none ↔ ∀ x, (a, x) ∉ m.entries := by
  rw [Option.eq_none_iff_forall_ne_some]
  exact forall_congr' fun x => not_congr findLeft_eq_some

end

section
variable [DecidableEq κ]

/-- `right.find(k)` -/
def findRight (m : BiMap α κ ν) (k : κ) : Option (α × ν) :=
  (m.entries.find? fun e => e.2.1 == k).map fun e => (e.1, e.2.2)

theorem findRight_eq_some {m : BiMap α κ ν} {k : κ} {a : α} {v : ν} :
    m.findRight k = some (a, v) ↔ (a, k, v) ∈ m.entries := by
  constructor
  · intro h
    obtain ⟨e, he, hav⟩ := Option.map_eq_some_iff.1 h
    obtain rfl : e.2.1 = k := by simpa using List.find?_some he
    cases hav
    exact List.mem_of_find?_eq_some he
  · intro h
    cases hf : m.entries.find? fun e => e.2.1 == k with
    | none => exact absurd (List.find?_eq_none.1 hf _ h) (by simp)
    | some e =>
      obtain rfl : e.2.1 = k := by simpa using List.find?_some hf
      obtain ⟨h1, h2⟩ := right_unique (List.mem_of_find?_eq_some hf) h
      rw [findRight, hf, Option.map_some, h1, h2]

theorem findRight_eq_none {m : BiMap α κ ν} {k : κ} :
    m.findRight k = none ↔ ∀ a v, (a, k, v) ∉ m.entries := by
  rw [Option.eq_none_iff_forall_ne_some]
  constructor
  · exact fun h a v hm => h (a, v) (findRight_eq_some.2 hm)
  · exact fun h x hx => h x.1 x.2 (findRight_eq_some.1 hx)

/-- `right.erase(k)` -/
def eraseRight (m : BiMap α κ ν) (k : κ) : BiMap α κ ν where
  entries := m.entries.filter fun e => e.2.1 != k
  left_nodup := m.left_nodup.sublist (List.filter_sublist.map _)
  right_nodup := m.right_nodup.sublist (List.filter_sublist.map _)

theorem mem_eraseRight {m : BiMap α κ ν} {k : κ} {e : α × κ × ν} :
    e ∈ (m.eraseRight k).entries ↔ e ∈ m.entries ∧ e.2.1 ≠ k := by
  simp [eraseRight]

end

variable [DecidableEq α] [DecidableEq κ]

/-- `insert` of a pair. -/
def insert (m : BiMap α κ ν) (a : α) (k : κ) (v : ν) : BiMap α κ ν :=
  if h : m.findLeft a = none ∧ m.findRight k = none then
    { entries := (a, k, v) :: m.entries
      left_nodup := by
        refine List.nodup_cons.2 ⟨?_, m.left_nodup⟩
        intro hm
        obtain ⟨e, he, rfl⟩ := List.mem_map.1 hm
        exact findLeft_eq_none.1 h.1 e.2 he
      right_nodup := by
        refine List.nodup_cons.2 ⟨?_, m.right_nodup⟩
        intro hm
        obtain ⟨e, he, rfl : e.2.1 = k⟩ := List.mem_map.1 hm
        exact findRight_eq_none.1 h.2 e.1 e.2.2 he }
  else m

theorem insert_of_left {m : BiMap α κ ν} {a : α} {k : κ} {v : ν} (h : m.findLeft a ≠ none) :
    m.insert a k v = m := dif_neg fun hn => h hn.1

theorem mem_insert {m : BiMap α κ ν} {a : α} {k : κ} {v : ν} (ha : m.findLeft a = none)
    (hk : m.findRight k = none) {e : α × κ × ν} :
    e ∈ (m.insert a k v).entries ↔ e = (a, k, v) ∨ e ∈ m.entries := by
  rw [insert, dif_pos ⟨ha, hk⟩]
  exact List.mem_cons

end BiMap
end ShadowTalk.Core
