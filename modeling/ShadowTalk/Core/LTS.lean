import Mathlib.Logic.Basic

/-!
# Labelled transition systems

A program that is driven by events (datagrams, timers, completions) is a
labelled transition system: a set of initial states and a step relation.

* `LTS.Inductive`: holds initially and is kept by every step; then it holds in
  every reachable state (`Inductive.reachable`).
* `Reachable.map`, `Reachable.simulate`: a function or a relation to another
  system that respects the steps.
* `Run.refine`: steps that are matched by runs of another system make runs that are.
* `Run.purge`: a run without the steps that an observer cannot tell apart from no step.
* `Run.length_add_le`, `exists_halted`: steps that use up work make runs that end.
* `LTS.guard C`: the same system restricted to the steps that meet `C`. "In
  every run whose steps all meet `C`" is reachability in `guard C`.
* `LTS.Exact C P`: `C` is the exact condition on the steps for `P` to hold along a
  run.
* `Inductive.run_iff`: two conditions that agree on the steps taken so far have the
  same runs.
* `LTS.ofFn`: the system of an executable partial step function, whose runs are
  found by evaluation (`run_of_exec`) and put out what their steps put out
  (`run_outputs`, `run_outputs_rel`).
-/
namespace ShadowTalk.Core

structure LTS (S L : Type*) where
  init : S → Prop
  step : S → L → S → Prop

namespace LTS

variable {S L : Type*} {M : LTS S L}

/-- A run: the labels of its steps, in order. -/
inductive Run (M : LTS S L) : S → List L → S → Prop
  | nil (s : S) : Run M s [] s
  | cons {s s' s'' : S} {l : L} {ls : List L} :
      M.step s l s' → Run M s' ls s'' → Run M s (l :: ls) s''

def Reachable (M : LTS S L) (s : S) : Prop := ∃ s₀ ls, M.init s₀ ∧ M.Run s₀ ls s

theorem Run.append {a b c : S} {l₁ l₂ : List L} (h₁ : M.Run a l₁ b) (h₂ : M.Run b l₂ c) :
    M.Run a (l₁ ++ l₂) c := by
  induction h₁ with
  | nil => exact h₂
  | cons hs _ ih => exact .cons hs (ih h₂)

theorem Run.single {a b : S} {l : L} (h : M.step a l b) : M.Run a [l] b := .cons h (.nil _)

theorem Reachable.ofInit {s : S} (h : M.init s) : M.Reachable s := ⟨s, [], h, .nil s⟩

theorem Reachable.run {a b : S} {ls : List L} (h : M.Reachable a) (hr : M.Run a ls b) :
    M.Reachable b := by
  obtain ⟨s₀, ks, hi, hk⟩ := h
  exact ⟨s₀, ks ++ ls, hi, hk.append hr⟩

theorem Reachable.step {a b : S} {l : L} (h : M.Reachable a) (hs : M.step a l b) :
    M.Reachable b := h.run (.single hs)

/-! ## Inductive invariants -/

structure Inductive (M : LTS S L) (P : S → Prop) : Prop where
  init : ∀ s, M.init s → P s
  step : ∀ s l s', P s → M.step s l s' → P s'

theorem run_invariant {P : S → Prop} (hstep : ∀ s l s', P s → M.step s l s' → P s') {a b : S}
    {ls : List L} (hr : M.Run a ls b) (ha : P a) : P b := by
  induction hr with
  | nil => exact ha
  | cons hs _ ih => exact ih (hstep _ _ _ ha hs)

theorem Inductive.reachable {P : S → Prop} (h : M.Inductive P) {s : S} (hr : M.Reachable s) :
    P s := by
  obtain ⟨s₀, ls, hi, hk⟩ := hr
  exact run_invariant h.step hk (h.init s₀ hi)

/-- A second invariant may use the first one before and after each step. -/
theorem Inductive.and {P Q : S → Prop} (hP : M.Inductive P) (hi : ∀ s, M.init s → Q s)
    (hs : ∀ s l s', P s → P s' → Q s → M.step s l s' → Q s') :
    M.Inductive fun s => P s ∧ Q s where
  init s h := ⟨hP.init s h, hi s h⟩
  step s l s' h hst :=
    have hp := hP.step s l s' h.1 hst
    ⟨hp, hs s l s' h.1 hp h.2 hst⟩

/-- A function that takes each step to a step, or to no change, takes reachable
states to reachable states. -/
theorem Reachable.map {T K : Type*} {N : LTS T K} {P : S → Prop} (f : S → T)
    (hP : M.Inductive P) (hi : ∀ s, M.init s → N.init (f s))
    (hs : ∀ s l s', P s → M.step s l s' → f s' = f s ∨ ∃ k, N.step (f s) k (f s')) {s : S}
    (h : M.Reachable s) : N.Reachable (f s) := by
  have key : M.Inductive fun s => P s ∧ N.Reachable (f s) :=
    hP.and (fun s h => .ofInit (hi s h)) fun s l s' hp _ hr hst => by
      rcases hs s l s' hp hst with he | ⟨k, hk⟩
      · rw [he]; exact hr
      · exact hr.step hk
  exact (key.reachable h).2

/-- Every step from related states is matched by a step that ends in related
states: what one system reaches is related to what the other one reaches. -/
theorem Reachable.simulate {T K : Type*} {N : LTS T K} (R : S → T → Prop)
    (hi : ∀ s, M.init s → ∃ t, N.init t ∧ R s t)
    (hs : ∀ s l s' t, R s t → M.step s l s' → ∃ k t', N.step t k t' ∧ R s' t') {s : S}
    (h : M.Reachable s) : ∃ t, N.Reachable t ∧ R s t := by
  have key : M.Inductive fun s => ∃ t, N.Reachable t ∧ R s t :=
    { init := fun s h => by
        obtain ⟨t, ht, hr⟩ := hi s h
        exact ⟨t, .ofInit ht, hr⟩
      step := fun s l s' h hst => by
        obtain ⟨t, ht, hr⟩ := h
        obtain ⟨k, t', hk, hr'⟩ := hs s l s' t hr hst
        exact ⟨t', ht.step hk, hr'⟩ }
  exact key.reachable h

/-- Every step is matched by a run of `N`, and `W` says what the two have in common: then
every run is. -/
theorem Run.refine {T K : Type*} {N : LTS T K} {P : S → Prop} {f : S → T}
    {W : S → List L → List K → S → Prop} (hP : ∀ s l s', P s → M.step s l s' → P s')
    (hnil : ∀ s, W s [] [] s)
    (happ : ∀ a l ks b ls ks' c, W a [l] ks b → W b ls ks' c → W a (l :: ls) (ks ++ ks') c)
    (hs : ∀ s l s', P s → M.step s l s' → ∃ ks, N.Run (f s) ks (f s') ∧ W s [l] ks s')
    {a b : S} {ls : List L} (hr : M.Run a ls b) (ha : P a) :
    ∃ ks, N.Run (f a) ks (f b) ∧ W a ls ks b := by
  induction hr with
  | nil s => exact ⟨[], .nil _, hnil s⟩
  | cons hst _ ih =>
    obtain ⟨ks, hk, hw⟩ := hs _ _ _ ha hst
    obtain ⟨ks', hk', hw'⟩ := ih (hP _ _ _ ha hst)
    exact ⟨ks ++ ks', hk.append hk', happ _ _ _ _ _ _ _ hw hw'⟩

/-- What an observer sees of a run he also sees of the run without the steps that are not
kept: those change nothing that `R` relates, the others can be taken from related states. -/
theorem Run.purge {C : L → Prop} [DecidablePred C] {R : S → S → Prop}
    (hdrop : ∀ s l s' t, R s t → M.step s l s' → ¬ C l → R s' t)
    (hkeep : ∀ s l s' t, R s t → M.step s l s' → C l → ∃ t', M.step t l t' ∧ R s' t')
    {a b t : S} {ls : List L} (hr : M.Run a ls b) (h : R a t) :
    ∃ t', M.Run t (ls.filter C) t' ∧ R b t' := by
  induction hr generalizing t with
  | nil => exact ⟨t, .nil _, h⟩
  | @cons s s' _ l ls hst _ ih =>
    by_cases hl : C l
    · obtain ⟨t₁, ht, hR⟩ := hkeep s l s' t h hst hl
      obtain ⟨t', hrun, hR'⟩ := ih hR
      rw [List.filter_cons_of_pos (by simpa using hl)]
      exact ⟨t', .cons ht hrun, hR'⟩
    · obtain ⟨t', hrun, hR'⟩ := ih (hdrop s l s' t h hst hl)
      rw [List.filter_cons_of_neg (by simpa using hl)]
      exact ⟨t', hrun, hR'⟩

/-! ## Runs that come to an end -/

/-- No step is possible. -/
def Halted (M : LTS S L) (s : S) : Prop := ∀ l s', ¬ M.step s l s'

section
variable {P : S → Prop} {work : S → Nat} (hP : ∀ s l s', P s → M.step s l s' → P s')
  (hw : ∀ s l s', P s → M.step s l s' → work s' < work s)
include hP hw

/-- Each step does some of the work, so that a run has at most as many steps. -/
theorem Run.length_add_le {a b : S} {ls : List L} (hr : M.Run a ls b) (ha : P a) :
    ls.length + work b ≤ work a := by
  induction hr with
  | nil => simp
  | @cons s s' _ l ls hs _ ih =>
    have hlt := hw s l s' ha hs
    have hle := ih (hP s l s' ha hs)
    simp only [List.length_cons]
    omega

/-- Whatever has been done can be brought to an end. -/
theorem exists_halted {a : S} (ha : P a) : ∃ ls b, M.Run a ls b ∧ M.Halted b := by
  induction hn : work a using Nat.strongRecOn generalizing a with
  | _ n ih =>
    by_cases hh : M.Halted a
    · exact ⟨[], a, .nil a, hh⟩
    · simp only [Halted, not_forall, not_not] at hh
      obtain ⟨l, s', hs⟩ := hh
      have hlt := hw a l s' ha hs
      obtain ⟨ls, b, hr, hb⟩ := ih (work s') (by omega) (hP a l s' ha hs) rfl
      exact ⟨l :: ls, b, .cons hs hr, hb⟩

end

/-! ## Restricted runs -/

/-- The runs of `M` all of whose steps meet `C`. -/
def guard (M : LTS S L) (C : S → L → Prop) : LTS S L where
  init := M.init
  step s l s' := M.step s l s' ∧ C s l

theorem Run.of_guard {C : S → L → Prop} {a b : S} {ls : List L} (h : (M.guard C).Run a ls b) :
    M.Run a ls b := by
  induction h with
  | nil => exact .nil _
  | cons hs _ ih => exact .cons hs.1 ih

theorem Reachable.of_guard {C : S → L → Prop} {s : S} (h : (M.guard C).Reachable s) :
    M.Reachable s := by
  obtain ⟨s₀, ls, hi, hr⟩ := h
  exact ⟨s₀, ls, hi, hr.of_guard⟩

theorem Inductive.of_guard {C : S → L → Prop} {P : S → Prop} (h : M.Inductive P) :
    (M.guard C).Inductive P where
  init := h.init
  step s l s' hp hs := h.step s l s' hp hs.1

/-- `C` is exactly what the steps of a run have to meet for `P` to hold all along:
`P` holds in every run whose steps meet `C`, and no longer after the first step
that does not. -/
structure Exact (M : LTS S L) (C : S → L → Prop) (P : S → Prop) : Prop where
  sound : ∀ s, (M.guard C).Reachable s → P s
  sharp : ∀ s l s', (M.guard C).Reachable s → M.step s l s' → P s' → C s l

theorem Inductive.exact {C : S → L → Prop} {Q P : S → Prop} (h : (M.guard C).Inductive Q)
    (hP : ∀ s, Q s → P s) (hs : ∀ s l s', Q s → M.step s l s' → P s' → C s l) :
    M.Exact C P where
  sound _ hr := hP _ (h.reachable hr)
  sharp _ _ _ hr hst hp := hs _ _ _ (h.reachable hr) hst hp

/-- `C` is what a step has to meet for `D` to hold of it, as long as all steps so far
met it: a run meets `D` all along exactly if it meets `C` all along. -/
theorem Inductive.run_iff {C D : S → L → Prop} {P : S → Prop} (hP : (M.guard C).Inductive P)
    (h : ∀ s l s', P s → M.step s l s' → (D s l ↔ C s l)) {a b : S} {ls : List L}
    (ha : M.init a) : (M.guard D).Run a ls b ↔ (M.guard C).Run a ls b := by
  have hstart := hP.init a ha
  clear ha
  constructor
  · intro hr
    induction hr with
    | nil => exact .nil _
    | @cons s s' _ l _ hs _ ih =>
      have hc := (h s l s' hstart hs.1).1 hs.2
      exact .cons ⟨hs.1, hc⟩ (ih (hP.step s l s' hstart ⟨hs.1, hc⟩))
  · intro hr
    induction hr with
    | nil => exact .nil _
    | @cons s s' _ l _ hs _ ih =>
      exact .cons ⟨hs.1, (h s l s' hstart hs.1).2 hs.2⟩ (ih (hP.step s l s' hstart hs))

/-! ## Executable systems -/

/-- The system of a partial step function; `none` means the label is not
enabled. -/
def ofFn (init : S → Prop) (f : S → L → Option S) : LTS S L where
  init := init
  step s l s' := f s l = some s'

/-- Run a list of labels. -/
def exec (f : S → L → Option S) : S → List L → Option S
  | s, [] => some s
  | s, l :: ls => (f s l).bind fun s' => exec f s' ls

theorem run_of_exec {init : S → Prop} {f : S → L → Option S} {ls : List L} :
    ∀ {s s' : S}, exec f s ls = some s' → (ofFn init f).Run s ls s' := by
  induction ls with
  | nil =>
    intro s s' h
    simp only [exec, Option.some.injEq] at h
    subst h
    exact .nil _
  | cons l ls ih =>
    intro s s' h
    simp only [exec, Option.bind_eq_some_iff] at h
    obtain ⟨s₁, h₁, h₂⟩ := h
    exact .cons h₁ (ih h₂)

theorem exec_of_run {init : S → Prop} {f : S → L → Option S} {ls : List L} {s s' : S}
    (h : (ofFn init f).Run s ls s') : exec f s ls = some s' := by
  induction h with
  | nil => rfl
  | cons hs _ ih => exact Option.bind_eq_some_iff.2 ⟨_, hs, ih⟩

theorem reachable_of_exec {init : S → Prop} {f : S → L → Option S} {ls : List L} {s s' : S}
    (hi : init s) (h : exec f s ls = some s') : (ofFn init f).Reachable s' :=
  ⟨s, ls, hi, run_of_exec h⟩

/-- A state with a decidable property, found by evaluating a list of labels. -/
theorem exists_reachable_of_exec {init : S → Prop} {f : S → L → Option S} {s : S} (ls : List L)
    {P : S → Prop} [DecidablePred P] (hi : init s)
    (h : (exec f s ls).any (fun s' => decide (P s')) = true) :
    ∃ s', (ofFn init f).Reachable s' ∧ P s' := by
  cases he : exec f s ls with
  | none => simp [he] at h
  | some s' => exact ⟨s', reachable_of_exec hi he, by simpa [he] using h⟩

/-- Run a list of labels, checking `C` before each step. -/
def execGuard (f : S → L → Option S) (C : S → L → Prop) [∀ s l, Decidable (C s l)] :
    S → List L → Option S
  | s, [] => some s
  | s, l :: ls => if C s l then (f s l).bind fun s' => execGuard f C s' ls else none

theorem run_of_execGuard {init : S → Prop} {f : S → L → Option S} {C : S → L → Prop}
    [∀ s l, Decidable (C s l)] {ls : List L} :
    ∀ {s s' : S}, execGuard f C s ls = some s' → ((ofFn init f).guard C).Run s ls s' := by
  induction ls with
  | nil =>
    intro s s' h
    simp only [execGuard, Option.some.injEq] at h
    subst h
    exact .nil _
  | cons l ls ih =>
    intro s s' h
    simp only [execGuard] at h
    split at h
    · rename_i hc
      simp only [Option.bind_eq_some_iff] at h
      obtain ⟨s₁, h₁, h₂⟩ := h
      exact .cons ⟨h₁, hc⟩ (ih h₂)
    · cases h

theorem reachable_of_execGuard {init : S → Prop} {f : S → L → Option S} {C : S → L → Prop}
    [∀ s l, Decidable (C s l)] {ls : List L} {s s' : S} (hi : init s)
    (h : execGuard f C s ls = some s') : ((ofFn init f).guard C).Reachable s' :=
  ⟨s, ls, hi, run_of_execGuard h⟩

theorem exists_reachable_of_execGuard {init : S → Prop} {f : S → L → Option S}
    {C : S → L → Prop} [∀ s l, Decidable (C s l)] {s : S} (ls : List L) {P : S → Prop}
    [DecidablePred P] (hi : init s)
    (h : (execGuard f C s ls).any (fun s' => decide (P s')) = true) :
    ∃ s', ((ofFn init f).guard C).Reachable s' ∧ P s' := by
  cases he : execGuard f C s ls with
  | none => simp [he] at h
  | some s' => exact ⟨s', reachable_of_execGuard hi he, by simpa [he] using h⟩

/-- What the steps of a list of labels put out. -/
def outputs {O : Type*} (f : S → L → Option S) (out : S → L → List O) : S → List L → List O
  | _, [] => []
  | s, l :: ls => out s l ++ ((f s l).map fun s' => outputs f out s' ls).getD []

/-- An observation that grows by what each step puts out grows along a run by all
that was put out. -/
theorem run_outputs {O : Type*} {init : S → Prop} {f : S → L → Option S} {C : S → L → Prop}
    {P : S → Prop} {obs : S → List O} {out : S → L → List O}
    (hP : ((ofFn init f).guard C).Inductive P)
    (hobs : ∀ s l s', P s → C s l → f s l = some s' → obs s' = obs s ++ out s l) {a b : S}
    {ls : List L} (hr : ((ofFn init f).guard C).Run a ls b) (ha : P a) :
    obs b = obs a ++ outputs f out a ls := by
  induction hr with
  | nil s => simp [outputs]
  | @cons s s' s'' l ls hs _ ih =>
    have hstep : f s l = some s' := hs.1
    rw [ih (hP.step _ _ _ ha hs), hobs s l s' ha hs.2 hstep, List.append_assoc]
    simp only [outputs, hstep, Option.map_some, Option.getD_some]

/-- What a step adds to all that was put out so far keeps `R`: then a run does. -/
theorem run_outputs_rel {O : Type*} {init : S → Prop} {f : S → L → Option S} {C : S → L → Prop}
    {R : List O → S → Prop} {out : S → L → List O}
    (hR : ∀ os s l s', R os s → C s l → f s l = some s' → R (os ++ out s l) s') {a b : S}
    {ls : List L} (hr : ((ofFn init f).guard C).Run a ls b) {os : List O} (ha : R os a) :
    R (os ++ outputs f out a ls) b := by
  induction hr generalizing os with
  | nil s => simpa [outputs] using ha
  | @cons s s' s'' l ls hs _ ih =>
    have hstep : f s l = some s' := hs.1
    have hrest := ih (hR os s l s' ha hs.2 hstep)
    simpa only [outputs, hstep, Option.map_some, Option.getD_some, List.append_assoc] using hrest

end LTS
end ShadowTalk.Core
