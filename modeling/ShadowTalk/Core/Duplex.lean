import ShadowTalk.Core.LTS
import Mathlib.Data.List.Perm.Subperm
import Mathlib.Data.List.InsertIdx
import Mathlib.Tactic.Common

/-!
# Two parties over a lossy network

Two parties run the same program (a `Machine`). A message that was sent stays in
the network: it may be delivered at any later time, any number of times, in any
order, or never. Each packet carries a `tag`, a ghost record of the situation it
was sent in, for use in the statement of what a run is allowed to deliver.

* `Net.step`: `deliver` copies a packet to its receiver, `consume` delivers it
  and takes it out of the network, `act` is a step of one party on its own.
* `Net.lossy_cases`, `Net.reliable_cases`: every step is one party moving and its
  answers being sent.
* `Net.map_move`, `Net.map_arrive`: a function between machines that respects what
  the parties do respects the steps.
* `Net.Carries`: what is at least under way, and how to deliver it.
-/
namespace ShadowTalk.Core

inductive Side where
  | a | b
  deriving DecidableEq, Repr

namespace Side

def other : Side → Side
  | .a => .b
  | .b => .a

@[simp] theorem other_other (x : Side) : x.other.other = x := by cases x <;> rfl

@[simp] theorem other_ne (x : Side) : x.other ≠ x := by cases x <;> decide

@[simp] theorem ne_other (x : Side) : x ≠ x.other := by cases x <;> decide

theorem eq_or_eq_other (x y : Side) : y = x ∨ y = x.other := by cases x <;> cases y <;> decide

end Side

/-- One value for each side. -/
structure Two (σ : Type) where
  a : σ
  b : σ
  deriving DecidableEq, Repr

namespace Two

variable {σ σ' : Type}

def get (t : Two σ) : Side → σ
  | .a => t.a
  | .b => t.b

def set (t : Two σ) (x : Side) (v : σ) : Two σ :=
  match x with
  | .a => { t with a := v }
  | .b => { t with b := v }

def map (f : σ → σ') (t : Two σ) : Two σ' := ⟨f t.a, f t.b⟩

@[simp] theorem get_set_self (t : Two σ) (x : Side) (v : σ) : (t.set x v).get x = v := by
  cases x <;> rfl

@[simp] theorem get_set_other (t : Two σ) (x : Side) (v : σ) :
    (t.set x v).get x.other = t.get x.other := by
  cases x <;> rfl

@[simp] theorem set_get (t : Two σ) (x : Side) : t.set x (t.get x) = t := by cases x <;> rfl

@[simp] theorem set_set (t : Two σ) (x : Side) (v w : σ) : (t.set x v).set x w = t.set x w := by
  cases x <;> rfl

@[simp] theorem get_map (f : σ → σ') (t : Two σ) (x : Side) : (t.map f).get x = f (t.get x) := by
  cases x <;> rfl

@[simp] theorem map_set (f : σ → σ') (t : Two σ) (x : Side) (v : σ) :
    (t.set x v).map f = (t.map f).set x (f v) := by
  cases x <;> rfl

end Two

/-- What the two parties run. `ρ` are the random choices made on a delivery,
`α` the steps of a party on its own, `τ` the tags. -/
structure Machine (σ μ ρ α τ : Type) where
  recv : Side → σ → μ → ρ → σ × List μ
  act : Side → σ → α → Option (σ × List μ)
  /-- the sender after its step, the other party, the message it answers -/
  tag : σ → σ → Option μ → τ

structure Packet (μ τ : Type) where
  src : Side
  msg : μ
  tag : τ
  deriving DecidableEq, Repr

structure Net (σ μ τ : Type) where
  party : Two σ
  net : List (Packet μ τ)
  deriving DecidableEq, Repr

namespace Net

variable {σ μ ρ α τ : Type}

inductive Label (ρ α : Type) where
  /-- a copy of packet number `i` arrives -/
  | deliver (i : Nat) (r : ρ)
  /-- packet number `i` arrives and is gone -/
  | consume (i : Nat) (r : ρ)
  | act (x : Side) (l : α)
  deriving DecidableEq, Repr

def get (s : Net σ μ τ) (x : Side) : σ := s.party.get x

/-- Party `x` has become `r.1` and has sent `r.2` in answer to `cause`. -/
def move (M : Machine σ μ ρ α τ) (s : Net σ μ τ) (x : Side) (r : σ × List μ) (cause : Option μ) :
    Net σ μ τ where
  party := s.party.set x r.1
  net := s.net ++ r.2.map fun m => ⟨x, m, M.tag r.1 (s.get x.other) cause⟩

/-- The arrival of `p`. -/
def arrive (M : Machine σ μ ρ α τ) (s : Net σ μ τ) (p : Packet μ τ) (r : ρ) : Net σ μ τ :=
  s.move M p.src.other (M.recv p.src.other (s.get p.src.other) p.msg r) (some p.msg)

def step (M : Machine σ μ ρ α τ) (s : Net σ μ τ) : Label ρ α → Option (Net σ μ τ)
  | .deliver i r => s.net[i]?.map fun p => s.arrive M p r
  | .consume i r => s.net[i]?.map fun p => ({ s with net := s.net.eraseIdx i } : Net σ μ τ).arrive M p r
  | .act x l => (M.act x (s.get x) l).map fun r => s.move M x r none

/-- No packet is taken away: a run that may still deliver everything again. -/
def lossy (init : Net σ μ τ → Prop) (M : Machine σ μ ρ α τ) : LTS (Net σ μ τ) (Label ρ α) :=
  .ofFn init fun s l => match l with
    | .consume _ _ => none
    | l => step M s l

/-- A packet arrives and is gone, or a party takes a step in `T`. -/
def Label.isReliable (T : α → Bool) : Label ρ α → Bool
  | .deliver _ _ => false
  | .consume _ _ => true
  | .act _ l => T l

/-- Every packet arrives once, and of the steps of a party on its own only those
in `T` are taken. -/
def reliable (T : α → Bool) (M : Machine σ μ ρ α τ) : LTS (Net σ μ τ) (Label ρ α) :=
  .ofFn (fun _ => True) fun s l => if l.isReliable T then step M s l else none

section
variable {M : Machine σ μ ρ α τ} {s s' : Net σ μ τ} {x : Side}

@[simp] theorem get_move_self (r : σ × List μ) (c : Option μ) : (s.move M x r c).get x = r.1 :=
  Two.get_set_self _ _ _

@[simp] theorem get_move_other (r : σ × List μ) (c : Option μ) :
    (s.move M x r c).get x.other = s.get x.other := Two.get_set_other _ _ _

theorem mem_move {r : σ × List μ} {c : Option μ} {p : Packet μ τ} :
    p ∈ (s.move M x r c).net ↔
      p ∈ s.net ∨ p.src = x ∧ p.msg ∈ r.2 ∧ p.tag = M.tag r.1 (s.get x.other) c := by
  simp only [move, List.mem_append, List.mem_map]
  constructor
  · rintro (h | ⟨m, hm, rfl⟩)
    · exact .inl h
    · exact .inr ⟨rfl, hm, rfl⟩
  · rintro (h | ⟨h1, h2, h3⟩)
    · exact .inl h
    · refine .inr ⟨p.msg, h2, ?_⟩
      obtain ⟨src, msg, tag⟩ := p
      simp only at h1 h3 ⊢
      rw [h1, h3]

/-- What a party has sent is under way. -/
theorem exists_mem_move (s : Net σ μ τ) (x : Side) (r : σ × List μ) (c : Option μ) {m : μ}
    (hm : m ∈ r.2) : ∃ p ∈ (s.move M x r c).net, p.src = x ∧ p.msg = m :=
  ⟨⟨x, m, M.tag r.1 (s.get x.other) c⟩, mem_move.2 (.inr ⟨rfl, hm, rfl⟩), rfl, rfl⟩

/-- A step of a lossy run: a packet arrives, or a party acts. -/
theorem lossy_cases {init : Net σ μ τ → Prop} {l : Label ρ α}
    (h : (lossy init M).step s l s') :
    (∃ i r p, l = .deliver i r ∧ s.net[i]? = some p ∧ p ∈ s.net ∧ s' = s.arrive M p r) ∨
      ∃ x k r, l = .act x k ∧ M.act x (s.get x) k = some r ∧ s' = s.move M x r none := by
  cases l with
  | deliver i r =>
    obtain ⟨p, hp, rfl⟩ := Option.map_eq_some_iff.1 (show s.net[i]?.map _ = some s' from h)
    exact .inl ⟨i, r, p, rfl, hp, List.mem_of_getElem? hp, rfl⟩
  | consume i r => cases h
  | act x k =>
    obtain ⟨r, hr, rfl⟩ := Option.map_eq_some_iff.1 (show (M.act _ _ _).map _ = some s' from h)
    exact .inr ⟨x, k, r, rfl, hr, rfl⟩

theorem reliable_step {T : α → Bool} {l : Label ρ α} :
    (reliable T M).step s l s' ↔ l.isReliable T = true ∧ step M s l = some s' := by
  show (if l.isReliable T = true then step M s l else none) = some s' ↔ _
  split <;> simp_all

/-- A step of a run without losses; a packet is taken out before it arrives. -/
theorem reliable_cases {T : α → Bool} {l : Label ρ α} (h : (reliable T M).step s l s') :
    (∃ i r p, l = .consume i r ∧ s.net[i]? = some p ∧
        s' = arrive M { s with net := s.net.eraseIdx i } p r) ∨
      ∃ x k r, l = .act x k ∧ T k = true ∧ M.act x (s.get x) k = some r ∧ s' = s.move M x r none := by
  obtain ⟨hl, h⟩ := reliable_step.1 h
  cases l with
  | deliver i r => cases hl
  | consume i r =>
    obtain ⟨p, hp, rfl⟩ := Option.map_eq_some_iff.1 (show s.net[i]?.map _ = some s' from h)
    exact .inl ⟨i, r, p, rfl, hp, rfl⟩
  | act x k =>
    obtain ⟨r, hr, rfl⟩ := Option.map_eq_some_iff.1 (show (M.act _ _ _).map _ = some s' from h)
    exact .inr ⟨x, k, r, rfl, hl, hr, rfl⟩

/-! ## What is under way -/

/-- At least these messages are under way, each as often as it is listed. -/
def Carries (s : Net σ μ τ) (l : List (Side × μ)) : Prop :=
  l.Subperm (s.net.map fun p => (p.src, p.msg))

theorem Carries.mono {l l' : List (Side × μ)} (h : s.Carries l) (hl : l'.Subperm l) :
    s.Carries l' := hl.trans h

theorem Carries.move {l : List (Side × μ)} {r : σ × List μ} {c : Option μ} (h : s.Carries l) :
    (s.move M x r c).Carries (l ++ r.2.map (x, ·)) := by
  unfold Carries Net.move
  rw [List.map_append, List.map_map]
  exact h.append (List.Subperm.refl _)

/-- Any of the messages can be the next one to arrive. -/
theorem Carries.consume {m : μ} {l : List (Side × μ)} (h : s.Carries ((x, m) :: l)) (r : ρ) :
    ∃ i p, s.net[i]? = some p ∧ p.src = x ∧ p.msg = m ∧
      (arrive M { s with net := s.net.eraseIdx i } p r).Carries
        (l ++ (M.recv x.other (s.get x.other) m r).2.map (x.other, ·)) := by
  have hmem : (x, m) ∈ s.net.map fun p => (p.src, p.msg) := h.subset List.mem_cons_self
  obtain ⟨i, hi, he⟩ := List.mem_iff_getElem.1 hmem
  rw [List.length_map] at hi
  rw [List.getElem_map, Prod.mk.injEq] at he
  obtain ⟨hsrc, hmsg⟩ := he
  refine ⟨i, s.net[i], List.getElem?_eq_getElem hi, hsrc, hmsg, ?_⟩
  have hrest : ({ s with net := s.net.eraseIdx i } : Net σ μ τ).Carries l := by
    have hp : ((x, m) :: (s.net.eraseIdx i).map fun p => (p.src, p.msg)).Perm
        (s.net.map fun p => (p.src, p.msg)) := by
      rw [← hsrc, ← hmsg, ← List.map_cons (f := fun p : Packet μ τ => (p.src, p.msg))]
      exact (List.getElem_cons_eraseIdx_perm hi).map _
    exact (List.subperm_cons _).1 (h.trans hp.symm.subperm)
  have := hrest.move (M := M) (x := x.other) (r := M.recv x.other (s.get x.other) m r)
    (c := some m)
  unfold arrive
  rw [hsrc, hmsg]
  exact this

end

/-! ## Functions between machines -/

section
variable {σ' μ' τ' α' : Type} (f : σ → σ') (g : μ → μ') (h : τ → τ')

def map (s : Net σ μ τ) : Net σ' μ' τ' where
  party := s.party.map f
  net := s.net.map fun p => ⟨p.src, g p.msg, h p.tag⟩

@[simp] theorem get_mapNet (s : Net σ μ τ) (x : Side) : (s.map f g h).get x = f (s.get x) :=
  Two.get_map _ _ _

variable {f g h} {M : Machine σ μ ρ α τ} {N : Machine σ' μ' ρ α' τ'} {s : Net σ μ τ} {x : Side}

theorem map_move {r : σ × List μ} {c : Option μ}
    (htag : h (M.tag r.1 (s.get x.other) c) = N.tag (f r.1) (f (s.get x.other)) (c.map g)) :
    (s.move M x r c).map f g h = (s.map f g h).move N x (f r.1, r.2.map g) (c.map g) := by
  simp only [move, map, Two.map_set, List.map_append, List.map_map, Net.mk.injEq, true_and]
  congr 1
  refine List.map_congr_left fun m _ => ?_
  simp only [Function.comp_apply, htag]
  simp [get]

theorem map_arrive {p : Packet μ τ} {r : ρ}
    (htag : ∀ u v c, h (M.tag u v c) = N.tag (f u) (f v) (c.map g))
    (hrecv : N.recv p.src.other (f (s.get p.src.other)) (g p.msg) r =
      (f (M.recv p.src.other (s.get p.src.other) p.msg r).1,
        (M.recv p.src.other (s.get p.src.other) p.msg r).2.map g)) :
    (s.arrive M p r).map f g h = (s.map f g h).arrive N ⟨p.src, g p.msg, h p.tag⟩ r := by
  unfold arrive
  rw [map_move (N := N) (htag _ _ _)]
  simp only [get_mapNet, hrecv, Option.map_some]

end

end Net
end ShadowTalk.Core
