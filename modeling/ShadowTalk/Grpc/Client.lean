import ShadowTalk.Core.LTS
import ShadowTalk.Grpc.Message
import Mathlib.Tactic.Common

/-!
# The sending and receiving half of the gRPC client

A `Context` queues the messages of the user; the `MessageSender` of its stream
takes them out one by one and writes them. `running_` is to keep the two in
step: a message that is queued while no write is under way starts one.

`Client.lts` has every order of `Enqueue` calls and completion-queue events:
the stream is ready, a message was read, a write has completed, each of them
with `ok` true or false.

* `inv_inductive`: as long as nothing is queued when the stream gets ready,
  `running_` is exactly "a write is outstanding".
* `writes_ordered`: with that condition, and not without it, at most one write is
  outstanding, no deleted sender is used, and the messages go out in the order of
  the `Enqueue` calls.

Limitation: `Enqueue` and the completion-queue events exclude each other here;
in the source only the events take the lock.
-/
namespace ShadowTalk.Grpc
open ShadowTalk.Core

/-- mirrors client/GRPCClient.cpp:153 -/
inductive SenderState where
  | init | running
  deriving DecidableEq, Repr

/-- What `sender_` points to. -/
inductive SenderPtr where
  | null
  | live (s : SenderState)
  | dangling
  deriving DecidableEq, Repr

/-- Which call on a deleted `MessageSender` was made. -/
inductive Fault where
  | enqueue | completion
  deriving DecidableEq, Repr

/-- `written` is what `rw_->Write` was called with and `outstanding` counts the
writes that have not completed; `enqueued` is the history of `Enqueue`.
mirrors client/GRPCClient.hpp:30-46 -/
structure Context where
  msgQ : List Message
  running : Bool
  sender : SenderPtr
  written : List Registry.Message
  outstanding : Nat
  enqueued : List Message
  deriving DecidableEq, Repr

namespace Context

/-- mirrors client/GRPCClient.cpp:268-272 -/
def new : Context := ⟨[], false, .null, [], 0, []⟩

/-- mirrors client/GRPCClient.cpp:285-294 -/
def dequeue (c : Context) : Option Message × Context :=
  match c.msgQ with
  | [] => (none, { c with running := false })
  | m :: q => (some m, { c with msgQ := q })

/-- `rw_->Write`. -/
def write (c : Context) (m : Registry.Message) : Context :=
  { c with written := c.written ++ [m], outstanding := c.outstanding + 1 }

end Context

/-- `MessageSender::Proceed`; `none` once the sender has deleted itself.
mirrors client/GRPCClient.cpp:123-150 -/
def MessageSender.proceed (qt : Qt) (c : Context) (_state : SenderState) (ok : Bool) :
    Option SenderState × Context :=
  -- `INIT` falls through to `RUNNING`
  if !ok then (none, c)
  else
    match c.dequeue with
    | (none, c) => (some .running, c)
    | (some m, c) => (some .running, c.write (m.toSend qt))

/-- `delete this` leaves the pointer as it is. -/
def SenderPtr.after : Option SenderState → SenderPtr
  | some s => .live s
  | none => .dangling

/-- The message that `SwitchMessagesCall` passes on: the `QString` that
`fromStdString` returns is not assigned to anything.
mirrors client/GRPCClient.cpp:191-196 -/
def Message.received (qt : Qt) (r : Registry.Message) : Message :=
  let msg : Message := ⟨[], []⟩
  let _ := qt.fromStdString r.peerId
  { msg with bytes := r.content }

/-- mirrors client/GRPCClient.cpp:220 -/
inductive SwitchState where
  | ready | reading
  deriving DecidableEq, Repr

/-- The context, its `SwitchMessagesCall` (`none` once it is deleted) and the
messages that its callback got. -/
structure Client where
  ctx : Context
  call : Option SwitchState
  callbacks : List Message
  fault : Option Fault
  deriving DecidableEq, Repr

namespace Client

/-- mirrors client/GRPCClient.cpp:258-262 and 172-176 -/
def new : Client := ⟨.new, some .ready, [], none⟩

inductive Event where
  | enqueue (m : Message)
  | ready (ok : Bool)
  | read (ok : Bool) (r : Registry.Message)
  | wrote (ok : Bool)
  deriving DecidableEq, Repr

/-- mirrors client/GRPCClient.cpp:274-283 -/
def enqueue (qt : Qt) (s : Client) (m : Message) : Client :=
  let c := { s.ctx with msgQ := s.ctx.msgQ ++ [m], enqueued := s.ctx.enqueued ++ [m] }
  if !c.running && c.sender != .null then
    let c := { c with running := true }
    match c.sender with
    | .live st =>
      let r := MessageSender.proceed qt c st true
      { s with ctx := { r.2 with sender := .after r.1 } }
    | _ => { s with ctx := c, fault := some .enqueue }
  else { s with ctx := c }

/-- The sender is constructed, which runs `Proceed(true)`, before `sender_` is
assigned.
mirrors client/GRPCClient.cpp:177-185 and 115-121 -/
def ready (qt : Qt) (s : Client) (ok : Bool) : Client :=
  if !ok then { s with call := none }
  else
    let r := MessageSender.proceed qt s.ctx .init true
    { s with ctx := { r.2 with sender := .after r.1 }, call := some .reading }

/-- mirrors client/GRPCClient.cpp:186-209 -/
def read (qt : Qt) (s : Client) (ok : Bool) (r : Registry.Message) : Client :=
  if !ok then { s with call := none }
  else { s with callbacks := s.callbacks ++ [.received qt r] }

/-- A write has completed. -/
def wrote (qt : Qt) (s : Client) (ok : Bool) : Client :=
  let c := { s.ctx with outstanding := s.ctx.outstanding - 1 }
  match c.sender with
  | .live st =>
    let r := MessageSender.proceed qt c st ok
    { s with ctx := { r.2 with sender := .after r.1 } }
  | _ => { s with ctx := c, fault := some .completion }

/-- After a call on a deleted object nothing more is said. -/
def step (qt : Qt) (s : Client) (e : Event) : Option Client :=
  if s.fault.isSome then none
  else
    match e with
    | .enqueue m => some (s.enqueue qt m)
    | .ready ok => if s.call = some .ready then some (s.ready qt ok) else none
    | .read ok r => if s.call = some .reading then some (s.read qt ok r) else none
    | .wrote ok => if 0 < s.ctx.outstanding then some (s.wrote qt ok) else none

def lts (qt : Qt) : LTS Client Event := .ofFn (· = new) (step qt)

variable {qt : Qt} {s s' : Client} {e : Event}

/-- A step, by the kind of the event. -/
theorem step_cases (h : step qt s e = some s') :
    s.fault = none ∧
      ((∃ m, e = .enqueue m ∧ s' = s.enqueue qt m) ∨
        (∃ ok, e = .ready ok ∧ s.call = some .ready ∧ s' = s.ready qt ok) ∨
        (∃ ok r, e = .read ok r ∧ s.call = some .reading ∧ s' = s.read qt ok r) ∨
        ∃ ok, e = .wrote ok ∧ 0 < s.ctx.outstanding ∧ s' = s.wrote qt ok) := by
  unfold step at h
  split at h
  · cases h
  · rename_i hf
    refine ⟨by simpa using hf, ?_⟩
    cases e with
    | enqueue m => exact .inl ⟨m, rfl, by simpa using h.symm⟩
    | ready ok =>
      simp only at h
      split at h
      · rename_i hc
        exact .inr (.inl ⟨ok, rfl, hc, by simpa using h.symm⟩)
      · cases h
    | read ok r =>
      simp only at h
      split at h
      · rename_i hc
        exact .inr (.inr (.inl ⟨ok, r, rfl, hc, by simpa using h.symm⟩))
      · cases h
    | wrote ok =>
      simp only at h
      split at h
      · rename_i hc
        exact .inr (.inr (.inr ⟨ok, rfl, hc, by simpa using h.symm⟩))
      · cases h

/-! ## Order -/

/-- What has been written and what is queued, one after the other, is what
`Enqueue` was called with. -/
def Ordered (qt : Qt) (c : Context) : Prop :=
  c.written ++ c.msgQ.map (Message.toSend qt) = c.enqueued.map (Message.toSend qt)

theorem proceed_ordered {c : Context} {st : SenderState} {ok : Bool} (h : Ordered qt c) :
    Ordered qt (MessageSender.proceed qt c st ok).2 := by
  unfold MessageSender.proceed
  split
  · exact h
  · cases hq : c.msgQ with
    | nil => simpa [Context.dequeue, hq, Ordered] using h
    | cons m q => simpa [Context.dequeue, hq, Ordered, Context.write] using h

theorem ordered_inductive : (lts qt).Inductive fun s => Ordered qt s.ctx where
  init s h := by subst h; rfl
  step s e s' hi h := by
    obtain ⟨-, ⟨m, rfl, rfl⟩ | ⟨ok, rfl, -, rfl⟩ | ⟨ok, r, rfl, -, rfl⟩ | ⟨ok, rfl, -, rfl⟩⟩ :=
      step_cases h
    · have hq : Ordered qt
          { s.ctx with msgQ := s.ctx.msgQ ++ [m], enqueued := s.ctx.enqueued ++ [m] } := by
        unfold Ordered at hi ⊢
        simp only [List.map_append, ← List.append_assoc, hi]
      unfold enqueue
      simp only
      split
      · split
        · exact proceed_ordered hq
        · exact hq
      · exact hq
    · unfold ready
      split
      · exact hi
      · exact proceed_ordered hi
    · unfold read
      split <;> exact hi
    · unfold wrote
      simp only
      split
      · exact proceed_ordered (c := { s.ctx with outstanding := s.ctx.outstanding - 1 }) hi
      · exact hi

theorem proceed_written (c : Context) (st : SenderState) (ok : Bool) :
    c.written <+: (MessageSender.proceed qt c st ok).2.written := by
  unfold MessageSender.proceed
  split
  · exact List.prefix_refl _
  · cases hq : c.msgQ with
    | nil => simp only [Context.dequeue, hq]; exact List.prefix_refl _
    | cons m q => simp only [Context.dequeue, hq, Context.write]; exact List.prefix_append _ _

/-- What has been written stays. -/
theorem step_written (h : step qt s e = some s') : s.ctx.written <+: s'.ctx.written := by
  obtain ⟨-, ⟨m, rfl, rfl⟩ | ⟨ok, rfl, -, rfl⟩ | ⟨ok, r, rfl, -, rfl⟩ | ⟨ok, rfl, -, rfl⟩⟩ :=
    step_cases h
  · unfold enqueue
    simp only
    split
    · split
      · exact proceed_written { s.ctx with msgQ := _, running := true, enqueued := _ } _ _
      · exact List.prefix_refl _
    · exact List.prefix_refl _
  · unfold ready
    split
    · exact List.prefix_refl _
    · exact proceed_written _ _ _
  · unfold read
    split <;> exact List.prefix_refl _
  · unfold wrote
    simp only
    split
    · exact proceed_written { s.ctx with outstanding := s.ctx.outstanding - 1 } _ _
    · exact List.prefix_refl _

/-- Only a message that was read is passed to the callback. -/
theorem step_callbacks (h : step qt s e = some s') :
    s'.callbacks = s.callbacks ++ match e with
      | .read true r => [Message.received qt r]
      | _ => [] := by
  obtain ⟨-, ⟨m, rfl, rfl⟩ | ⟨ok, rfl, -, rfl⟩ | ⟨ok, r, rfl, -, rfl⟩ | ⟨ok, rfl, -, rfl⟩⟩ :=
    step_cases h
  · unfold enqueue
    simp only [List.append_nil]
    split
    · split <;> rfl
    · rfl
  · unfold ready
    simp only [List.append_nil]
    split <;> rfl
  · unfold read
    cases ok <;> simp
  · unfold wrote
    simp only [List.append_nil]
    split <;> rfl

/-! ## `running_` -/

/-- `running_` says exactly whether a write is outstanding, except that it stays
set when the sender is gone. -/
structure Inv (s : Client) : Prop where
  fault : s.fault = none
  early : s.call = some .ready → s.ctx.sender = .null
  null : s.ctx.sender = .null → s.ctx.running = false ∧ s.ctx.outstanding = 0
  live : ∀ st, s.ctx.sender = .live st → s.ctx.outstanding = s.ctx.running.toNat
  dangling : s.ctx.sender = .dangling → s.ctx.running = true ∧ s.ctx.outstanding = 0

theorem inv_new : Inv new :=
  ⟨rfl, fun _ => rfl, fun _ => ⟨rfl, rfl⟩, fun _ h => (by cases h), fun h => (by cases h)⟩

/-- Nothing is queued when the stream gets ready. -/
def EmptyAtReady (s : Client) (e : Event) : Prop := e = .ready true → s.ctx.msgQ = []

instance (s : Client) (e : Event) : Decidable (EmptyAtReady s e) :=
  inferInstanceAs (Decidable (_ → _))

/-- `Proceed` of a sender that has no write outstanding, with `running_` set. -/
theorem inv_proceed {c : Context} {st : SenderState} {ok : Bool} (hf : s.fault = none)
    (hc : s.call ≠ some .ready) (hr : c.running = true) (ho : c.outstanding = 0) :
    Inv { s with ctx := { (MessageSender.proceed qt c st ok).2 with
                          sender := .after (MessageSender.proceed qt c st ok).1 } } := by
  unfold MessageSender.proceed
  cases ok with
  | false =>
    exact ⟨hf, fun h => absurd h hc, fun h => (by cases h), fun _ h => (by cases h),
      fun _ => ⟨hr, ho⟩⟩
  | true =>
    cases hq : c.msgQ with
    | nil =>
      simp only [Context.dequeue, hq, Bool.not_true, Bool.false_eq_true, if_false]
      exact ⟨hf, fun h => absurd h hc, fun h => (by cases h), fun _ _ => ho, fun h => (by cases h)⟩
    | cons m q =>
      simp only [Context.dequeue, hq, Bool.not_true, Bool.false_eq_true, if_false]
      refine ⟨hf, fun h => absurd h hc, fun h => (by cases h), fun _ _ => ?_, fun h => (by cases h)⟩
      simp [Context.write, ho, hr]

theorem inv_enqueue (hi : Inv s) (m : Message) : Inv (s.enqueue qt m) := by
  unfold enqueue
  simp only
  split
  · rename_i h
    simp only [Bool.and_eq_true, Bool.not_eq_true', bne_iff_ne] at h
    obtain ⟨hr, hn⟩ := h
    split
    · rename_i st hs
      have hc : s.call ≠ some .ready := fun hc => hn (hi.early hc)
      have ho : s.ctx.outstanding = 0 := by rw [hi.live st hs, hr]; rfl
      exact inv_proceed hi.fault hc rfl ho
    · rename_i hs
      cases hp : s.ctx.sender with
      | null => exact absurd hp hn
      | live st => exact absurd hp (hs st)
      | dangling =>
        have := (hi.dangling hp).1
        rw [hr] at this
        cases this
  · exact ⟨hi.fault, hi.early, hi.null, hi.live, hi.dangling⟩

theorem inv_ready (hi : Inv s) (hc : s.call = some .ready) {ok : Bool}
    (hq : ok = true → s.ctx.msgQ = []) : Inv (s.ready qt ok) := by
  obtain ⟨hr, ho⟩ := hi.null (hi.early hc)
  unfold ready
  cases ok with
  | false => exact ⟨hi.fault, fun h => (by cases h), hi.null, hi.live, hi.dangling⟩
  | true =>
    simp only [MessageSender.proceed, Context.dequeue, hq rfl, Bool.not_true, Bool.false_eq_true,
      if_false]
    exact ⟨hi.fault, fun h => (by cases h), fun h => (by cases h), fun _ _ => ho,
      fun h => (by cases h)⟩

theorem inv_read (hi : Inv s) (ok : Bool) (r : Registry.Message) :
    Inv (s.read qt ok r) := by
  unfold read
  split
  · exact ⟨hi.fault, fun h => (by cases h), hi.null, hi.live, hi.dangling⟩
  · exact ⟨hi.fault, hi.early, hi.null, hi.live, hi.dangling⟩

theorem inv_wrote (hi : Inv s) (ho : 0 < s.ctx.outstanding) (ok : Bool) : Inv (s.wrote qt ok) := by
  unfold wrote
  simp only
  split
  · rename_i st hs
    have hlive := hi.live st hs
    have hr : s.ctx.running = true := by
      cases h : s.ctx.running with
      | true => rfl
      | false => rw [h] at hlive; simp only [Bool.toNat_false] at hlive; omega
    have hc : s.call ≠ some .ready := fun hc => by rw [hi.early hc] at hs; cases hs
    refine inv_proceed hi.fault hc hr ?_
    show s.ctx.outstanding - 1 = 0
    rw [hlive, hr]
    rfl
  · rename_i hs
    cases hp : s.ctx.sender with
    | null => have := (hi.null hp).2; omega
    | live st => exact absurd hp (hs st)
    | dangling => have := (hi.dangling hp).2; omega

theorem inv_inductive : ((lts qt).guard EmptyAtReady).Inductive Inv where
  init s h := by subst h; exact inv_new
  step s e s' hi h := by
    obtain ⟨h, hg⟩ := h
    obtain ⟨-, ⟨m, rfl, rfl⟩ | ⟨ok, rfl, hc, rfl⟩ | ⟨ok, r, rfl, -, rfl⟩ | ⟨ok, rfl, ho, rfl⟩⟩ :=
      step_cases h
    · exact inv_enqueue hi m
    · exact inv_ready hi hc fun h => hg (by rw [h])
    · exact inv_read hi ok r
    · exact inv_wrote hi ho ok

/-- What is promised of the writes: at most one at a time, and `running_` shows it;
no sender is used after it is gone; the messages go out in their order. -/
structure WritesOrdered (qt : Qt) (s : Client) : Prop where
  one : s.ctx.outstanding ≤ 1
  shown : 0 < s.ctx.outstanding → s.ctx.running = true
  alive : s.fault ≠ some .enqueue
  order : s.ctx.written <+: s.ctx.enqueued.map (Message.toSend qt)

theorem Inv.writesOrdered (hi : Inv s) (ho : Ordered qt s.ctx) : WritesOrdered qt s where
  one := by
    cases hp : s.ctx.sender with
    | null => rw [(hi.null hp).2]; exact Nat.zero_le _
    | live st => rw [hi.live st hp]; exact Bool.toNat_le _
    | dangling => rw [(hi.dangling hp).2]; exact Nat.zero_le _
  shown h := by
    cases hp : s.ctx.sender with
    | null => rw [(hi.null hp).2] at h; cases h
    | live st =>
      rw [hi.live st hp] at h
      cases hr : s.ctx.running with
      | true => rfl
      | false => rw [hr] at h; cases h
    | dangling => rw [(hi.dangling hp).2] at h; cases h
  alive := by rw [hi.fault]; rintro ⟨⟩
  order := ⟨_, ho⟩

/-- A stream that gets ready while a message is queued starts a write that
`running_` does not show. -/
theorem ready_sharp (hi : Inv s) (hc : s.call = some .ready)
    (h : WritesOrdered qt (s.ready qt true)) : s.ctx.msgQ = [] := by
  by_contra hne
  obtain ⟨m, q, hq⟩ := List.exists_cons_of_ne_nil hne
  have hr := (hi.null (hi.early hc)).1
  have := h.shown
  simp only [ready, MessageSender.proceed, Context.dequeue, hq, Context.write, Bool.not_true,
    Bool.false_eq_true, if_false, hr] at this
  exact this (Nat.succ_pos _)

theorem writes_ordered (qt : Qt) : (lts qt).Exact EmptyAtReady (WritesOrdered qt) := by
  have hinv : ((lts qt).guard EmptyAtReady).Inductive fun s => Inv s ∧ Ordered qt s.ctx :=
    inv_inductive.and (fun s h => ordered_inductive.init s h)
      fun s e s' _ _ ho h => ordered_inductive.step s e s' ho h.1
  refine hinv.exact (fun s h => h.1.writesOrdered h.2) fun s e s' hi h hp he => ?_
  subst he
  obtain ⟨-, ⟨m, he, -⟩ | ⟨ok, he, hc, rfl⟩ | ⟨ok, r, he, -⟩ | ⟨ok, he, -⟩⟩ := step_cases h
  · cases he
  · cases he
    exact ready_sharp hi.1 hc hp
  · cases he
  · cases he

/-- The stream gets ready, two messages are queued, one write completes and one fails. -/
def chatTrace : List Event :=
  [.ready true, .enqueue ⟨[98], [1]⟩, .enqueue ⟨[98], [2]⟩, .wrote true, .wrote false,
    .enqueue ⟨[98], [3]⟩]

theorem writes_ordered_chatTrace :
    ∃ s, s.ctx.written = [⟨[98], .text, [1]⟩, ⟨[98], .text, [2]⟩] ∧ s.ctx.sender = .dangling ∧
      WritesOrdered .ascii s := by
  have hrun : ∃ s, ((lts .ascii).guard EmptyAtReady).Reachable s ∧
      (s.ctx.written = [⟨[98], .text, [1]⟩, ⟨[98], .text, [2]⟩] ∧ s.ctx.sender = .dangling) :=
    LTS.exists_reachable_of_execGuard chatTrace rfl (by decide +kernel)
  obtain ⟨s, hr, hw, hs⟩ := hrun
  exact ⟨s, hw, hs, (writes_ordered .ascii).sound s hr⟩

/-- A message is queued before the stream is ready: with a second one two writes
are outstanding, and when the first write fails the next `Enqueue` calls the
deleted sender. -/
theorem writes_not_ordered :
    (∃ s, (lts .ascii).Reachable s ∧ s.ctx.outstanding = 2) ∧
      ∃ s, (lts .ascii).Reachable s ∧ s.fault = some .enqueue :=
  ⟨LTS.exists_reachable_of_exec
      [.enqueue ⟨[98], [1]⟩, .ready true, .enqueue ⟨[98], [2]⟩] rfl (by decide +kernel),
    LTS.exists_reachable_of_exec
      [.enqueue ⟨[98], [1]⟩, .ready true, .wrote false, .enqueue ⟨[98], [2]⟩] rfl
      (by decide +kernel)⟩

end Client
end ShadowTalk.Grpc
