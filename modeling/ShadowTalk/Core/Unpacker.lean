import ShadowTalk.Core.Bytes
import Mathlib.Tactic.Common

/-!
# Incremental parsers

An `Unpacker` takes objects off the front of a growing buffer: the next object is
complete, the buffer is malformed, or more bytes are needed. What it says of some
bytes it still says when more have arrived.

* `scan`: all complete objects of a buffer, and the rest, unless it failed.
* `scan_append`: more bytes continue the scan at the rest of the first ones.
* `scan_concat`: a single byte completes no object and fails the scan both.
* `filterMap`: the objects are converted, and a conversion may fail.
* `ofCode`: the unpacker of a finite prefix code.
-/
namespace ShadowTalk.Core

/-- What the front of a buffer is. -/
inductive Next (β α : Type) where
  | incomplete
  | bad
  | item (a : α) (rest : List β)
  deriving DecidableEq, Repr

/-- An object is a non-empty front of the buffer, and is recognised as soon as it is
complete; what is malformed stays so. -/
structure Unpacker (β α : Type) where
  next : List β → Next β α
  nil : next [] = .incomplete
  item : ∀ {b a r}, next b = .item a r → ∃ w, b = w ++ r ∧ ∀ c, next (w ++ c) = .item a c
  bad : ∀ {b} c, next b = .bad → next (b ++ c) = .bad

namespace Unpacker

variable {β α γ : Type} (U : Unpacker β α)

/-- Objects are taken off until no complete one is left: the objects, and the
rest of the buffer, `none` after a failure. -/
def scanN : Nat → List β → List α × Option (List β)
  | 0, b => ([], some b)
  | fuel + 1, b =>
    match U.next b with
    | .incomplete => ([], some b)
    | .bad => ([], none)
    | .item a r => (a :: (scanN fuel r).1, (scanN fuel r).2)

/-- Every object takes a byte, so the length of the buffer is enough. -/
def scan (b : List β) : List α × Option (List β) := U.scanN (b.length + 1) b

variable {U} {b c r : List β} {a : α} {ms : List α}

theorem length_of_item (h : U.next b = .item a r) : r.length < b.length := by
  obtain ⟨w, rfl, hw⟩ := U.item h
  have hne : w ≠ [] := by
    intro he
    subst he
    have := hw []
    rw [List.nil_append, U.nil] at this
    cases this
  have := List.length_pos_iff.2 hne
  rw [List.length_append]
  omega

theorem item_append (h : U.next b = .item a r) (c : List β) :
    U.next (b ++ c) = .item a (r ++ c) := by
  obtain ⟨w, rfl, hw⟩ := U.item h
  rw [List.append_assoc, hw]

theorem scanN_of_length {n m : Nat} (hn : b.length < n) (hm : b.length < m) :
    U.scanN n b = U.scanN m b := by
  induction n generalizing b m with
  | zero => omega
  | succ n ih =>
    cases m with
    | zero => omega
    | succ m =>
      unfold scanN
      cases h : U.next b with
      | incomplete => rfl
      | bad => rfl
      | item a r =>
        have hlt := length_of_item h
        simp only [ih (show r.length < n by omega) (show r.length < m by omega)]

/-- One step of the scan. -/
theorem scan_eq (U : Unpacker β α) (b : List β) :
    U.scan b =
      match U.next b with
      | .incomplete => ([], some b)
      | .bad => ([], none)
      | .item a r => (a :: (U.scan r).1, (U.scan r).2) := by
  unfold scan
  rw [scanN]
  cases h : U.next b with
  | incomplete => rfl
  | bad => rfl
  | item a r =>
    have hlt := length_of_item h
    simp only [scanN_of_length hlt (Nat.lt_succ_self r.length)]

theorem scan_incomplete (h : U.next b = .incomplete) : U.scan b = ([], some b) := by
  rw [scan_eq, h]

theorem scan_bad (h : U.next b = .bad) : U.scan b = ([], none) := by
  rw [scan_eq, h]

theorem scan_item (h : U.next b = .item a r) :
    U.scan b = (a :: (U.scan r).1, (U.scan r).2) := by
  rw [scan_eq, h]

@[simp] theorem scan_nil (U : Unpacker β α) : U.scan [] = ([], some []) := scan_incomplete U.nil

/-- Bytes that arrive later continue at the rest of the earlier ones. -/
theorem scan_append (h : U.scan b = (ms, some r)) (c : List β) :
    U.scan (b ++ c) = (ms ++ (U.scan (r ++ c)).1, (U.scan (r ++ c)).2) := by
  induction hn : b.length using Nat.strongRecOn generalizing b ms with
  | ind n ih =>
    cases hx : U.next b with
    | incomplete =>
      rw [scan_incomplete hx, Prod.mk.injEq, Option.some.injEq] at h
      obtain ⟨rfl, rfl⟩ := h
      rfl
    | bad =>
      rw [scan_bad hx] at h
      cases h
    | item a r' =>
      have hlt := length_of_item hx
      rw [scan_item hx, Prod.mk.injEq] at h
      obtain ⟨rfl, hr⟩ := h
      rw [scan_item (item_append hx c), ih r'.length (by omega) (Prod.ext rfl hr) rfl]
      rfl

/-- After a failure, later bytes change nothing. -/
theorem scan_failed (h : U.scan b = (ms, none)) (c : List β) : U.scan (b ++ c) = (ms, none) := by
  induction hn : b.length using Nat.strongRecOn generalizing b ms with
  | ind n ih =>
    cases hx : U.next b with
    | incomplete =>
      rw [scan_incomplete hx] at h
      cases h
    | bad =>
      rw [scan_bad hx] at h
      rw [scan_bad (U.bad c hx), h]
    | item a r' =>
      have hlt := length_of_item hx
      rw [scan_item hx, Prod.mk.injEq] at h
      obtain ⟨rfl, hr⟩ := h
      rw [scan_item (item_append hx c), ih r'.length (by omega) (Prod.ext rfl hr) rfl]

/-- The rest of a scan is the beginning of an object. -/
theorem next_rest (h : U.scan b = (ms, some r)) : U.next r = .incomplete := by
  induction hn : b.length using Nat.strongRecOn generalizing b ms with
  | ind n ih =>
    cases hx : U.next b with
    | incomplete =>
      rw [scan_incomplete hx, Prod.mk.injEq, Option.some.injEq] at h
      rw [← h.2]
      exact hx
    | bad =>
      rw [scan_bad hx] at h
      cases h
    | item a r' =>
      have hlt := length_of_item hx
      rw [scan_item hx, Prod.mk.injEq] at h
      exact ih r'.length (by omega) (Prod.ext rfl h.2) rfl

/-- An object that the last byte completes ends with it. -/
theorem rest_of_concat {x : β} (hb : U.next b = .incomplete) (h : U.next (b ++ [x]) = .item a r) :
    r = [] := by
  obtain ⟨w, he, hw⟩ := U.item h
  rcases List.eq_nil_or_concat r with hr | ⟨r', y, hr⟩
  · exact hr
  · rw [hr, List.concat_eq_append, ← List.append_assoc] at he
    obtain ⟨rfl, -⟩ := List.append_inj' he rfl
    rw [hw] at hb
    cases hb

/-- A byte on its own: if the scan fails with it, it has completed no object. -/
theorem scan_concat {x : β} (h : U.scan b = (ms, some r)) (hf : (U.scan (b ++ [x])).2 = none) :
    U.scan (b ++ [x]) = (ms, none) := by
  have hr := next_rest h
  rw [scan_append h] at hf ⊢
  cases hx : U.next (r ++ [x]) with
  | incomplete =>
    rw [scan_incomplete hx] at hf
    cases hf
  | bad => rw [scan_bad hx, List.append_nil]
  | item a r' =>
    obtain rfl := rest_of_concat hr hx
    rw [scan_item hx, scan_nil] at hf
    cases hf

/-! ## Conversion -/

/-- Each object is converted; one that cannot be converted is malformed. -/
def filterMap (U : Unpacker β α) (f : α → Option γ) : Unpacker β γ where
  next b :=
    match U.next b with
    | .incomplete => .incomplete
    | .bad => .bad
    | .item a r =>
      match f a with
      | none => .bad
      | some v => .item v r
  nil := by rw [U.nil]
  item := by
    intro b v r h
    cases hx : U.next b with
    | incomplete =>
      rw [hx] at h
      cases h
    | bad =>
      rw [hx] at h
      cases h
    | item a s =>
      simp only [hx] at h
      cases hv : f a with
      | none =>
        rw [hv] at h
        cases h
      | some v' =>
        rw [hv] at h
        cases h
        obtain ⟨w, he, hw⟩ := U.item hx
        exact ⟨w, he, fun c => by simp only [hw, hv]⟩
  bad := by
    intro b c h
    cases hx : U.next b with
    | incomplete =>
      rw [hx] at h
      cases h
    | bad => rw [U.bad c hx]
    | item a s =>
      simp only [hx] at h
      cases hv : f a with
      | none => simp only [item_append hx, hv]
      | some v =>
        rw [hv] at h
        cases h

theorem filterMap_incomplete {f : α → Option γ} (h : U.next b = .incomplete) :
    (U.filterMap f).next b = .incomplete := by
  simp only [filterMap, h]

theorem filterMap_bad {f : α → Option γ} (h : U.next b = .bad) : (U.filterMap f).next b = .bad := by
  simp only [filterMap, h]

theorem filterMap_none {f : α → Option γ} (h : U.next b = .item a r) (hf : f a = none) :
    (U.filterMap f).next b = .bad := by
  simp only [filterMap, h, hf]

theorem filterMap_item {f : α → Option γ} {v : γ} (h : U.next b = .item a r) (hf : f a = some v) :
    (U.filterMap f).next b = .item v r := by
  simp only [filterMap, h, hf]

/-! ## Prefix codes -/

/-- Finitely many words, none of them a beginning of another. -/
structure Code (β α : Type) where
  words : List (List β × α)
  nonempty : ∀ w ∈ words, w.1 ≠ []
  free : ∀ v ∈ words, ∀ w ∈ words, v.1 <+: w.1 → v = w

variable [DecidableEq β]

/-- The word at the front of a buffer. -/
def Code.front (C : Code β α) (b : List β) : Option (List β × α) :=
  C.words.find? fun v => decide (v.1 <+: b)

theorem Code.front_eq_none {C : Code β α} {b : List β} :
    C.front b = none ↔ ∀ v ∈ C.words, ¬ v.1 <+: b := by
  simp [Code.front, List.find?_eq_none]

/-- There is at most one. -/
theorem Code.front_eq_some {C : Code β α} {b : List β} {v : List β × α} :
    C.front b = some v ↔ v ∈ C.words ∧ v.1 <+: b := by
  constructor
  · intro h
    have hfront := List.find?_some h
    simp only [decide_eq_true_eq] at hfront
    exact ⟨List.mem_of_find?_eq_some h, hfront⟩
  · intro h
    cases hw : C.front b with
    | none => exact absurd h.2 (Code.front_eq_none.1 hw v h.1)
    | some w =>
      have hmem := List.mem_of_find?_eq_some hw
      have hfront := List.find?_some hw
      simp only [decide_eq_true_eq] at hfront
      rcases Nat.le_total v.1.length w.1.length with hle | hle
      · rw [C.free v h.1 w hmem (List.prefix_of_prefix_length_le h.2 hfront hle)]
      · rw [C.free w hmem v h.1 (List.prefix_of_prefix_length_le hfront h.2 hle)]

/-- The unpacker of a finite prefix code. -/
def ofCode (C : Code β α) : Unpacker β α where
  next b :=
    match C.front b with
    | some v => .item v.2 (b.drop v.1.length)
    | none => if b = [] ∨ ∃ v ∈ C.words, b <+: v.1 then .incomplete else .bad
  nil := by
    cases hv : C.front [] with
    | none => simp
    | some v =>
      obtain ⟨hmem, hfront⟩ := Code.front_eq_some.1 hv
      exact absurd (List.prefix_nil.1 hfront) (C.nonempty v hmem)
  item := by
    intro b a r h
    cases hv : C.front b with
    | none =>
      simp only [hv] at h
      split at h <;> cases h
    | some v =>
      simp only [hv] at h
      cases h
      obtain ⟨hmem, t, rfl⟩ := Code.front_eq_some.1 hv
      refine ⟨v.1, by rw [List.drop_left], fun c => ?_⟩
      simp only [Code.front_eq_some.2 ⟨hmem, List.prefix_append v.1 c⟩, List.drop_left]
  bad := by
    intro b c h
    cases hv : C.front b with
    | some v =>
      simp only [hv] at h
      cases h
    | none =>
      simp only [hv] at h
      split at h
      · cases h
      · rename_i hno
        rw [not_or] at hno
        obtain ⟨hb, hno⟩ := hno
        cases hv' : C.front (b ++ c) with
        | some v =>
          -- a word at the front of the longer buffer was there, or had begun
          obtain ⟨hmem, hfront⟩ := Code.front_eq_some.1 hv'
          have hself : b <+: b ++ c := List.prefix_append b c
          rcases Nat.le_total v.1.length b.length with hle | hle
          · have hin := List.prefix_of_prefix_length_le hfront hself hle
            exact absurd hin (Code.front_eq_none.1 hv v hmem)
          · have hbegun := List.prefix_of_prefix_length_le hself hfront hle
            exact absurd ⟨v, hmem, hbegun⟩ hno
        | none =>
          have hno' : ¬ (b ++ c = [] ∨ ∃ v ∈ C.words, b ++ c <+: v.1) := by
            intro hor
            rcases hor with he | ⟨v, hmem, hfront⟩
            · exact hb (List.append_eq_nil_iff.1 he).1
            · exact hno ⟨v, hmem, (List.prefix_append b c).trans hfront⟩
          simp only [hno', if_false]

end Unpacker
end ShadowTalk.Core
