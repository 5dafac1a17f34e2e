import Mathlib.Data.List.Pairwise
import Mathlib.Order.Defs.LinearOrder
import Mathlib.Data.List.Lex
import Mathlib.Order.Lattice
import Mathlib.Tactic.ByCases

/-!
# Ordered maps (`std::map`)

A map is its list of entries in iteration order, that is in strictly increasing
key order; the order is a field, so every map is well formed. `insert` keeps an
entry that is already there (`std::map::insert`, `emplace`), `set` overwrites it
(`operator[] =`); both are `upsert`. `front?` and `back?` are `begin()` and
`rbegin()`.

A loop that erases from `begin()` while the first entry meets a test is `drain`,
and its rules are `drain_induct` (what each erased entry preserves),
`drain_suffix` (what is left) and `drain_stop` (why it stopped).

`insert_perm` and `erase_perm` see the entries as a bag.
-/
namespace ShadowTalk.Core

/-- Entries in strictly increasing key order. -/
structure OMap (κ α : Type) [LinearOrder κ] where
  entries : List (κ × α)
  sorted : entries.Pairwise fun a b => a.1 < b.1
  deriving DecidableEq

namespace OMap

section
variable {κ α σ : Type}

/-- Erase from `begin()` while `f` accepts the first entry, threading a state. -/
def drainList (f : σ → κ → α → Option σ) : σ → List (κ × α) → σ × List (κ × α)
  | s, [] => (s, [])
  | s, e :: es =>
    match f s e.1 e.2 with
    | some s' => drainList f s' es
    | none => (s, e :: es)

/-- The states after the rounds of the loop, one for each entry it takes. -/
def drainStates (f : σ → κ → α → Option σ) : σ → List (κ × α) → List σ
  | _, [] => []
  | s, e :: es =>
    match f s e.1 e.2 with
    | some s' => s' :: drainStates f s' es
    | none => []

theorem drainList_eq_getLastD (f : σ → κ → α → Option σ) (s : σ) (l : List (κ × α)) :
    (drainList f s l).1 = (drainStates f s l).getLastD s := by
  induction l generalizing s with
  | nil => rfl
  | cons e es ih =>
    simp only [drainList, drainStates]
    split
    · rw [ih, List.getLastD_cons]
    · rfl

theorem drainList_suffix (f : σ → κ → α → Option σ) (s : σ) (l : List (κ × α)) :
    (drainList f s l).2 <:+ l := by
  induction l generalizing s with
  | nil => exact List.suffix_refl _
  | cons e es ih =>
    simp only [drainList]
    split
    · exact (ih _).trans (List.suffix_cons e es)
    · exact List.suffix_refl _

end

variable {κ α σ : Type} [LinearOrder κ]

def empty : OMap κ α := ⟨[], .nil⟩

theorem ext_entries {m m' : OMap κ α} (h : m.entries = m'.entries) : m = m' := by
  cases m; cases m'; simpa using h

def find? (m : OMap κ α) (k : κ) : Option α := (m.entries.find? fun e => e.1 == k).map Prod.snd

/-- `begin()`. -/
def front? (m : OMap κ α) : Option (κ × α) := m.entries.head?

/-- `rbegin()`. -/
def back? (m : OMap κ α) : Option (κ × α) := m.entries.getLast?

theorem key_unique {m : OMap κ α} {k : κ} {v w : α} (hv : (k, v) ∈ m.entries)
    (hw : (k, w) ∈ m.entries) : v = w := by
  by_contra hne
  have hp := m.sorted
  obtain ⟨i, hi, ei⟩ := List.getElem_of_mem hv
  obtain ⟨j, hj, ej⟩ := List.getElem_of_mem hw
  rcases Nat.lt_trichotomy i j with h | h | h
  · have := List.pairwise_iff_getElem.mp hp i j hi hj h
    rw [ei, ej] at this; exact lt_irrefl _ this
  · subst h; rw [ei] at ej; cases ej; exact hne rfl
  · have := List.pairwise_iff_getElem.mp hp j i hj hi h
    rw [ei, ej] at this; exact lt_irrefl _ this

theorem find?_eq_some {m : OMap κ α} {k : κ} {v : α} :
    m.find? k = some v ↔ (k, v) ∈ m.entries := by
  constructor
  · intro h
    simp only [find?, Option.map_eq_some_iff] at h
    obtain ⟨⟨k', v'⟩, hf, rfl⟩ := h
    have hk : k' = k := by simpa using List.find?_some hf
    subst hk
    exact List.mem_of_find?_eq_some hf
  · intro h
    cases hf : m.find? k with
    | none =>
      simp only [find?, Option.map_eq_none_iff, List.find?_eq_none, beq_iff_eq] at hf
      exact absurd rfl (hf _ h)
    | some w =>
      simp only [find?, Option.map_eq_some_iff] at hf
      obtain ⟨⟨k', v'⟩, hf, rfl⟩ := hf
      have hk : k' = k := by simpa using List.find?_some hf
      subst hk
      rw [key_unique h (List.mem_of_find?_eq_some hf)]

theorem find?_eq_none {m : OMap κ α} {k : κ} :
    m.find? k = none ↔ ∀ e ∈ m.entries, e.1 ≠ k := by
  simp [find?, List.find?_eq_none]

theorem front?_eq_none {m : OMap κ α} : m.front? = none ↔ m.entries = [] := List.head?_eq_none_iff

theorem front?_mem {m : OMap κ α} {e : κ × α} (h : m.front? = some e) : e ∈ m.entries :=
  List.mem_of_head? h

theorem back?_mem {m : OMap κ α} {e : κ × α} (h : m.back? = some e) : e ∈ m.entries :=
  List.mem_of_getLast? h

/-- `begin()` has the least key. -/
theorem front?_le {m : OMap κ α} {e x : κ × α} (h : m.front? = some e) (hx : x ∈ m.entries) :
    x = e ∨ e.1 < x.1 := by
  have hs := m.sorted
  unfold front? at h
  cases hm : m.entries with
  | nil => simp [hm] at h
  | cons a l =>
    rw [hm] at h hx hs
    simp only [List.head?_cons, Option.some.injEq] at h
    subst h
    rcases List.mem_cons.1 hx with rfl | hx
    · exact .inl rfl
    · exact .inr ((List.pairwise_cons.1 hs).1 _ hx)

/-! ## Insertion -/

/-- Put `f old` at key `k`, where `old` is what is stored there. -/
def upsertList (k : κ) (f : Option α → α) : List (κ × α) → List (κ × α)
  | [] => [(k, f none)]
  | e :: es =>
    if k < e.1 then (k, f none) :: e :: es
    else if e.1 < k then e :: upsertList k f es
    else (k, f (some e.2)) :: es

theorem mem_upsertList_key {k : κ} {f : Option α → α} {l : List (κ × α)} {e : κ × α}
    (h : e ∈ upsertList k f l) : e.1 = k ∨ e ∈ l := by
  induction l with
  | nil =>
    simp only [upsertList, List.mem_singleton] at h
    exact .inl (by rw [h])
  | cons a l ih =>
    simp only [upsertList] at h
    split at h
    · rcases List.mem_cons.1 h with rfl | h
      · exact .inl rfl
      · exact .inr h
    · split at h
      · rcases List.mem_cons.1 h with rfl | h
        · exact .inr List.mem_cons_self
        · exact (ih h).imp id (List.mem_cons_of_mem _)
      · rcases List.mem_cons.1 h with rfl | h
        · exact .inl rfl
        · exact .inr (List.mem_cons_of_mem _ h)

theorem upsertList_sorted (k : κ) (f : Option α → α) {l : List (κ × α)}
    (h : l.Pairwise fun a b => a.1 < b.1) :
    (upsertList k f l).Pairwise fun a b => a.1 < b.1 := by
  induction l with
  | nil => simp [upsertList]
  | cons a l ih =>
    obtain ⟨ha, hl⟩ := List.pairwise_cons.1 h
    simp only [upsertList]
    split
    · rename_i hlt
      refine List.pairwise_cons.2 ⟨fun x hx => ?_, h⟩
      rcases List.mem_cons.1 hx with rfl | hx
      · exact hlt
      · exact lt_trans hlt (ha x hx)
    · split
      · rename_i hgt
        refine List.pairwise_cons.2 ⟨fun x hx => ?_, ih hl⟩
        rcases mem_upsertList_key hx with hk | hx
        · rw [hk]; exact hgt
        · exact ha x hx
      · rename_i h1 h2
        have hk : a.1 = k := le_antisymm (not_lt.1 h1) (not_lt.1 h2)
        exact List.pairwise_cons.2 ⟨fun x hx => hk ▸ ha x hx, hl⟩

def upsert (k : κ) (f : Option α → α) (m : OMap κ α) : OMap κ α :=
  ⟨upsertList k f m.entries, upsertList_sorted k f m.sorted⟩

/-- `std::map::insert`: an entry that is there already stays. -/
def insert (k : κ) (v : α) (m : OMap κ α) : OMap κ α := m.upsert k fun o => o.getD v

/-- `m[k] = v`. -/
def set (k : κ) (v : α) (m : OMap κ α) : OMap κ α := m.upsert k fun _ => v

theorem find?_upsertList (k : κ) (f : Option α → α) {l : List (κ × α)}
    (h : l.Pairwise fun a b => a.1 < b.1) :
    ((upsertList k f l).find? fun e => e.1 == k) =
      some (k, f ((l.find? fun e => e.1 == k).map Prod.snd)) := by
  induction l with
  | nil => simp [upsertList]
  | cons a l ih =>
    obtain ⟨ha, hl⟩ := List.pairwise_cons.1 h
    simp only [upsertList]
    split
    · rename_i hlt
      have hne : ∀ x ∈ a :: l, (x.1 == k) = false := by
        intro x hx
        have : k < x.1 := by
          rcases List.mem_cons.1 hx with rfl | hx
          · exact hlt
          · exact lt_trans hlt (ha x hx)
        simpa using (ne_of_gt this)
      have hn : (a :: l).find? (fun e => e.1 == k) = none :=
        List.find?_eq_none.2 fun x hx => by rw [hne x hx]; exact Bool.false_ne_true
      rw [hn, List.find?_cons_of_pos (by simp)]
      rfl
    · split
      · rename_i hgt
        have : (a.1 == k) = false := by simpa using ne_of_lt hgt
        rw [List.find?_cons_of_neg (by simp [this]), List.find?_cons_of_neg (by simp [this]), ih hl]
      · rename_i h1 h2
        have hk : a.1 = k := le_antisymm (not_lt.1 h1) (not_lt.1 h2)
        rw [List.find?_cons_of_pos (by simp), List.find?_cons_of_pos (by simpa using hk)]
        rfl

theorem upsertList_other (k : κ) (f : Option α → α) {l : List (κ × α)} {e : κ × α}
    (hne : e.1 ≠ k) : e ∈ upsertList k f l ↔ e ∈ l := by
  induction l with
  | nil =>
    simp only [upsertList, List.mem_singleton, List.not_mem_nil, iff_false]
    rintro rfl
    exact hne rfl
  | cons a l ih =>
    have hk : ∀ v, e ≠ (k, v) := by rintro v rfl; exact hne rfl
    simp only [upsertList]
    split
    · simp [hk]
    · split
      · simp [ih]
      · rename_i h1 h2
        have ha : a.1 = k := le_antisymm (not_lt.1 h1) (not_lt.1 h2)
        have hea : e ≠ a := by rintro rfl; exact hne ha
        simp [hk, hea]

theorem find?_upsert_self (m : OMap κ α) (k : κ) (f : Option α → α) :
    (m.upsert k f).find? k = some (f (m.find? k)) := by
  simp only [find?, upsert, find?_upsertList k f m.sorted, Option.map_some]

/-- The entries after `upsert`: the old ones at other keys, and the new one. -/
theorem mem_upsert {m : OMap κ α} {k : κ} {f : Option α → α} {e : κ × α} :
    e ∈ (m.upsert k f).entries ↔ (e ∈ m.entries ∧ e.1 ≠ k) ∨ e = (k, f (m.find? k)) := by
  have hself := find?_eq_some.1 (find?_upsert_self m k f)
  by_cases hk : e.1 = k
  · obtain ⟨k', v⟩ := e
    subst hk
    constructor
    · intro h; exact .inr (by rw [key_unique h hself])
    · rintro (⟨-, h⟩ | h)
      · exact absurd rfl h
      · rw [h]; exact hself
  · rw [upsert, upsertList_other k f hk]
    constructor
    · intro h; exact .inl ⟨h, hk⟩
    · rintro (⟨h, -⟩ | rfl)
      · exact h
      · exact absurd rfl hk

theorem mem_set {m : OMap κ α} {k : κ} {v : α} {e : κ × α} :
    e ∈ (m.set k v).entries ↔ (e ∈ m.entries ∧ e.1 ≠ k) ∨ e = (k, v) := mem_upsert

theorem mem_insert {m : OMap κ α} {k : κ} {v : α} {e : κ × α} :
    e ∈ (m.insert k v).entries ↔ e ∈ m.entries ∨ (m.find? k = none ∧ e = (k, v)) := by
  rw [insert, mem_upsert]
  cases hf : m.find? k with
  | none =>
    have := find?_eq_none.1 hf e
    simp only [Option.getD_none, true_and]
    exact or_congr_left (and_iff_left_of_imp this)
  | some w =>
    have hm := find?_eq_some.1 hf
    simp only [Option.getD_some, reduceCtorEq, false_and, or_false]
    constructor
    · rintro (⟨h, -⟩ | rfl)
      · exact h
      · exact hm
    · intro h
      by_cases hk : e.1 = k
      · obtain ⟨k', v'⟩ := e
        subst hk
        exact .inr (by rw [key_unique h hm])
      · exact .inl ⟨h, hk⟩

@[simp] theorem find?_set_self (m : OMap κ α) (k : κ) (v : α) : (m.set k v).find? k = some v :=
  find?_upsert_self m k _

theorem find?_upsert_ne (m : OMap κ α) {k k' : κ} (f : Option α → α) (h : k' ≠ k) :
    (m.upsert k f).find? k' = m.find? k' := by
  apply Option.ext
  intro v
  simp only [find?_eq_some, mem_upsert, Prod.mk.injEq, h, ne_eq, not_false_eq_true, and_true,
    false_and, or_false]

theorem find?_set_ne (m : OMap κ α) {k k' : κ} (v : α) (h : k' ≠ k) :
    (m.set k v).find? k' = m.find? k' := find?_upsert_ne m _ h

@[simp] theorem find?_insert_self (m : OMap κ α) (k : κ) (v : α) :
    (m.insert k v).find? k = some ((m.find? k).getD v) := find?_upsert_self m k _

theorem find?_insert_ne (m : OMap κ α) {k k' : κ} (v : α) (h : k' ≠ k) :
    (m.insert k v).find? k' = m.find? k' := find?_upsert_ne m _ h

/-- A key above all others goes to the end. -/
theorem insert_entries_of_lt {m : OMap κ α} {k : κ} (v : α) (h : ∀ e ∈ m.entries, e.1 < k) :
    (m.insert k v).entries = m.entries ++ [(k, v)] := by
  have key : ∀ l : List (κ × α), (∀ e ∈ l, e.1 < k) →
      upsertList k (fun o => o.getD v) l = l ++ [(k, v)] := by
    intro l
    induction l with
    | nil => exact fun _ => rfl
    | cons e es ih =>
      intro hl
      have he := hl e List.mem_cons_self
      simp only [upsertList, if_neg (lt_asymm he), if_pos he, List.cons_append,
        ih fun x hx => hl x (List.mem_cons_of_mem _ hx)]
  exact key m.entries h

/-- Assigning what is stored changes nothing. -/
theorem set_eq_self {m : OMap κ α} {k : κ} {v : α} (h : m.find? k = some v) : m.set k v = m := by
  have key : ∀ l : List (κ × α), l.Pairwise (fun a b => a.1 < b.1) → (k, v) ∈ l →
      upsertList k (fun _ => v) l = l := by
    intro l
    induction l with
    | nil => exact fun _ hl => by cases hl
    | cons e es ih =>
      intro hs hl
      obtain ⟨he, hes⟩ := List.pairwise_cons.1 hs
      rcases List.mem_cons.1 hl with rfl | hl
      · simp [upsertList]
      · have hlt : e.1 < k := he _ hl
        simp only [upsertList, if_neg (lt_asymm hlt), if_pos hlt, ih hes hl]
  exact ext_entries (key m.entries m.sorted (find?_eq_some.1 h))

/-- `begin()` after an assignment is at most the new key and every old one. -/
theorem front?_set_le {m : OMap κ α} {k : κ} {v : α} {e : κ × α}
    (h : (m.set k v).front? = some e) : e.1 ≤ k ∧ ∀ x ∈ m.entries, e.1 ≤ x.1 := by
  have hle : ∀ x ∈ (m.set k v).entries, e.1 ≤ x.1 := fun x hx => by
    rcases front?_le h hx with rfl | hlt
    · exact le_refl _
    · exact le_of_lt hlt
  have hk : e.1 ≤ k := hle (k, v) (mem_set.2 (.inr rfl))
  refine ⟨hk, fun x hx => ?_⟩
  by_cases hxk : x.1 = k
  · rw [hxk]; exact hk
  · exact hle x (mem_set.2 (.inl ⟨hx, hxk⟩))

theorem front?_set_of_le {m : OMap κ α} {k : κ} (v : α) (h : ∀ x ∈ m.entries, ¬ x.1 < k) :
    (m.set k v).front? = some (k, v) := by
  have hmem : (k, v) ∈ (m.set k v).entries := mem_set.2 (.inr rfl)
  cases hf : (m.set k v).front? with
  | none => rw [front?_eq_none.1 hf] at hmem; cases hmem
  | some e =>
    have hk := (front?_set_le hf).1
    rcases mem_set.1 (front?_mem hf) with ⟨he, hne⟩ | he
    · exact absurd (lt_of_le_of_ne hk hne) (h e he)
    · rw [he]

/-! ## Erasing -/

/-- `std::map::erase(key)`. -/
def erase (k : κ) (m : OMap κ α) : OMap κ α :=
  ⟨m.entries.filter fun e => e.1 != k, m.sorted.sublist List.filter_sublist⟩

theorem mem_erase {m : OMap κ α} {k : κ} {e : κ × α} :
    e ∈ (m.erase k).entries ↔ e ∈ m.entries ∧ e.1 ≠ k := by
  simp [erase, List.mem_filter]

@[simp] theorem find?_erase_self (m : OMap κ α) (k : κ) : (m.erase k).find? k = none := by
  rw [find?_eq_none]
  intro e he
  exact (mem_erase.1 he).2

theorem find?_erase_ne (m : OMap κ α) {k i : κ} (h : i ≠ k) :
    (m.erase k).find? i = m.find? i := by
  apply Option.ext
  intro v
  rw [find?_eq_some, find?_eq_some, mem_erase]
  constructor
  · intro hv
    exact hv.1
  · intro hv
    exact ⟨hv, h⟩

/-! ## As a bag of entries -/

theorem entries_nodup (m : OMap κ α) : m.entries.Nodup := by
  refine m.sorted.imp fun {a b} hlt he => ?_
  rw [he] at hlt
  exact lt_irrefl _ hlt

/-- A new key is one more entry. -/
theorem insert_perm {m : OMap κ α} {k : κ} (h : m.find? k = none) (v : α) :
    (m.insert k v).entries.Perm ((k, v) :: m.entries) := by
  have hnew : (k, v) ∉ m.entries := fun hm => find?_eq_none.1 h _ hm rfl
  rw [List.perm_ext_iff_of_nodup (entries_nodup _) (List.nodup_cons.2 ⟨hnew, m.entries_nodup⟩)]
  intro e
  simp only [mem_insert, h, true_and, List.mem_cons]
  exact or_comm

/-- A key that is there already is not. -/
theorem insert_perm_of_some {m : OMap κ α} {k : κ} {w : α} (h : m.find? k = some w) (v : α) :
    (m.insert k v).entries.Perm m.entries := by
  rw [List.perm_ext_iff_of_nodup (entries_nodup _) m.entries_nodup]
  intro e
  simp [mem_insert, h]

/-- An erased key is one entry less. -/
theorem erase_perm {m : OMap κ α} {k : κ} {v : α} (h : m.find? k = some v) :
    m.entries.Perm ((k, v) :: (m.erase k).entries) := by
  have hgone : (k, v) ∉ (m.erase k).entries := fun hm => (mem_erase.1 hm).2 rfl
  rw [List.perm_ext_iff_of_nodup m.entries_nodup
    (List.nodup_cons.2 ⟨hgone, entries_nodup _⟩)]
  intro e
  rw [List.mem_cons, mem_erase]
  by_cases hk : e.1 = k
  · obtain ⟨k', w⟩ := e
    subst hk
    constructor
    · intro hm
      exact .inl (by rw [key_unique hm (find?_eq_some.1 h)])
    · rintro (he | he)
      · rw [he]
        exact find?_eq_some.1 h
      · exact he.1
  · have hne : e ≠ (k, v) := by
      rintro rfl
      exact hk rfl
    simp [hk, hne]

def drain (f : σ → κ → α → Option σ) (s : σ) (m : OMap κ α) : σ × OMap κ α :=
  let r := drainList f s m.entries
  (r.1, ⟨r.2, m.sorted.sublist (drainList_suffix f s m.entries).sublist⟩)

theorem drain_suffix (f : σ → κ → α → Option σ) (s : σ) (m : OMap κ α) :
    (m.drain f s).2.entries <:+ m.entries := drainList_suffix f s m.entries

theorem drain_mem {f : σ → κ → α → Option σ} {s : σ} {m : OMap κ α} {e : κ × α}
    (h : e ∈ (m.drain f s).2.entries) : e ∈ m.entries := (drain_suffix f s m).subset h

/-- What holds before the loop and is kept by each erased entry holds after it. -/
theorem drain_induct {f : σ → κ → α → Option σ} (P : σ → List (κ × α) → Prop)
    (step : ∀ s e es s', P s (e :: es) → f s e.1 e.2 = some s' → P s' es) {s : σ}
    {m : OMap κ α} (h : P s m.entries) : P (m.drain f s).1 (m.drain f s).2.entries := by
  have key : ∀ (l : List (κ × α)) (s : σ), P s l → P (drainList f s l).1 (drainList f s l).2 := by
    intro l
    induction l with
    | nil => exact fun s hs => hs
    | cons e es ih =>
      intro s hs
      simp only [drainList]
      split
      · rename_i s' hf
        exact ih s' (step s e es s' hs hf)
      · exact hs
  exact key m.entries s h

/-- The loop stops at an empty map or at an entry that `f` rejects. -/
theorem drain_stop {f : σ → κ → α → Option σ} {s : σ} {m : OMap κ α} {e : κ × α}
    (h : (m.drain f s).2.front? = some e) : f (m.drain f s).1 e.1 e.2 = none := by
  have key : ∀ (l : List (κ × α)) (s : σ), (drainList f s l).2.head? = some e →
      f (drainList f s l).1 e.1 e.2 = none := by
    intro l
    induction l with
    | nil => intro s hs; simp [drainList] at hs
    | cons a l ih =>
      intro s hs
      simp only [drainList] at hs ⊢
      split at hs
      · exact ih _ hs
      · rename_i hf
        simp only [List.head?_cons, Option.some.injEq] at hs
        subst hs
        exact hf
  exact key m.entries s h

/-- An empty map, or a first entry that `f` rejects: nothing is erased. -/
theorem drain_of_reject {f : σ → κ → α → Option σ} {s : σ} {m : OMap κ α}
    (h : ∀ e, m.front? = some e → f s e.1 e.2 = none) : m.drain f s = (s, m) := by
  have hl : drainList f s m.entries = (s, m.entries) := by
    cases hm : m.entries with
    | nil => rfl
    | cons a l =>
      have hf : f s a.1 a.2 = none := h a (by rw [front?, hm, List.head?_cons])
      simp only [drainList, hf]
  exact Prod.ext (by simp only [drain, hl]) (ext_entries (by simp only [drain, hl]))

end OMap

/-! ## Key orders of the machine integers -/

instance linearOrderUInt32 : LinearOrder UInt32 where
  le_refl := UInt32.le_refl
  le_trans _ _ _ := UInt32.le_trans
  le_antisymm _ _ := UInt32.le_antisymm
  le_total := UInt32.le_total
  lt_iff_le_not_ge a b := by
    rw [UInt32.not_le]; exact ⟨fun h => ⟨UInt32.le_of_lt h, h⟩, fun h => h.2⟩
  toDecidableLE := inferInstance

instance linearOrderUInt8 : LinearOrder UInt8 where
  le_refl := UInt8.le_refl
  le_trans _ _ _ := UInt8.le_trans
  le_antisymm _ _ := UInt8.le_antisymm
  le_total := UInt8.le_total
  lt_iff_le_not_ge a b := by
    rw [UInt8.not_le]; exact ⟨fun h => ⟨UInt8.le_of_lt h, h⟩, fun h => h.2⟩
  toDecidableLE := inferInstance

end ShadowTalk.Core
