import ShadowTalk.Core.WriteQueue
import ShadowTalk.Whisper.Server

/-!
# The flag `writing_started_`

The writing half of a `session`: `WriteMessage` is called by the read handlers of
all sessions, `do_write` also when an `async_write` has completed. The constructor
does not set `writing_started_`.

* `SessionWrites.Keeps`: a session whose flag says whether an `async_write` is
  outstanding keeps a `WriteQueue`.
* `waits_of_set`: if the flag says so from the start, no message is ever written.
* `writes_ok_iff`: every run goes as it should exactly if the flag happens to be
  false when the session is made.
-/
namespace ShadowTalk.Whisper
open ShadowTalk.Core

/-- `completed` are the messages whose `async_write` has completed, oldest first. -/
structure SessionWrites where
  session : Session
  completed : List Message
  deriving DecidableEq

namespace SessionWrites

inductive Event where
  /-- `WriteMessage` is called -/
  | writeMessage (m : Message)
  /-- the oldest outstanding `async_write` completes without an error -/
  | wrote
  deriving DecidableEq

/-- The handler of `async_write` takes the oldest write and runs `do_write`. -/
def step (s : SessionWrites) : Event → Option SessionWrites
  | .writeMessage m => some { s with session := s.session.writeMessage m }
  | .wrote =>
    match s.session.writes with
    | [] => none
    | m :: ms => some ⟨({ s.session with writes := ms } : Session).doWrite, s.completed ++ [m]⟩

/-- A session as its constructor leaves it, with whatever is in the flag. -/
def start (writingStarted : Bool) : SessionWrites := ⟨.new writingStarted, []⟩

def lts (writingStarted : Bool) : LTS SessionWrites Event := .ofFn (· = start writingStarted) step

/-- The messages handed to `async_write`, in order. -/
def handed (s : SessionWrites) : List Message := s.completed ++ s.session.writes

/-- At most one `async_write` is outstanding, the messages are handed to it in the
order of `WriteMessage`, and none waits while nothing is outstanding. -/
structure WritesOk (s : SessionWrites) : Prop where
  one : s.session.writes.length ≤ 1
  order : s.handed <+: s.session.queued
  live : s.session.writes = [] → s.session.toWrite = []

/-- The queue that the session stands for. -/
structure Keeps (s : SessionWrites) (q : WriteQueue Message) : Prop where
  flag : s.session.writingStarted = q.inFlight.isSome
  writes : s.session.writes = q.inFlight.toList
  toWrite : s.session.toWrite = q.waiting
  completed : s.completed = q.done
  queued : s.session.queued = q.accepted

variable {s s' : SessionWrites} {q : WriteQueue Message}

theorem Keeps.inFlight (h : Keeps s q) (hw : s.session.writes = []) : q.inFlight = none := by
  rw [h.writes] at hw
  cases hq : q.inFlight with
  | none => rfl
  | some x => rw [hq] at hw; cases hw

theorem Keeps.completed_eq (h : Keeps s q) (hw : s.session.writes = []) :
    s.completed = s.session.queued := by
  have hidle := h.inFlight hw
  have hhanded := WriteQueue.handed_of_idle hidle
  rw [WriteQueue.handed, hidle, Option.toList_none, List.append_nil] at hhanded
  rw [h.completed, h.queued, hhanded]

theorem Keeps.writesOk (h : Keeps s q) : s.WritesOk where
  one := by
    rw [h.writes]
    exact q.outstanding_le
  order := by
    rw [handed, h.completed, h.writes, h.queued]
    exact q.handed_prefix
  live hw := by
    rw [h.toWrite]
    exact q.idle (h.inFlight hw)

theorem Keeps.writeMessage (h : Keeps s q) (m : Message) :
    Keeps { s with session := s.session.writeMessage m } (q.accept m) := by
  have hqueued : (s.session.writeMessage m).queued = (q.accept m).accepted := by
    rw [Session.writeMessage_queued, h.queued, WriteQueue.accept_accepted]
  rcases q.inFlight.eq_none_or_eq_some with hq | ⟨x, hq⟩
  · obtain ⟨h1, h2, h3⟩ := WriteQueue.accept_idle hq m
    have hw : s.session.writeMessage m = { s.session with
        writingStarted := true
        toWrite := []
        writes := s.session.writes ++ [m]
        queued := s.session.queued ++ [m] } := by
      unfold Session.writeMessage Session.doWrite
      simp [h.flag, h.toWrite, hq, q.idle hq]
    refine ⟨?_, ?_, ?_, ?_, hqueued⟩
    · simp [hw, h2]
    · simp [hw, h2, h.writes, hq]
    · simp [hw, h3]
    · simp [h1, h.completed]
  · obtain ⟨h1, h2, h3⟩ := WriteQueue.accept_busy hq m
    have hw : s.session.writeMessage m = { s.session with
        toWrite := s.session.toWrite ++ [m]
        queued := s.session.queued ++ [m] } := by
      unfold Session.writeMessage
      simp [h.flag, hq]
    refine ⟨?_, ?_, ?_, ?_, hqueued⟩
    · simp [hw, h2, h.flag, hq]
    · simp [hw, h2, h.writes, hq]
    · simp [hw, h3, h.toWrite]
    · simp [h1, h.completed]

theorem Keeps.wrote {m : Message} {ms : List Message} (h : Keeps s q)
    (hw : s.session.writes = m :: ms) : ∃ q', q.complete = some q' ∧
      Keeps ⟨({ s.session with writes := ms } : Session).doWrite, s.completed ++ [m]⟩ q' := by
  cases hq : q.inFlight with
  | none => rw [h.writes, hq] at hw; cases hw
  | some x =>
    rw [h.writes, hq] at hw
    obtain ⟨rfl, rfl⟩ := List.cons.inj hw
    obtain ⟨q', hc, h1, h2, h3⟩ := WriteQueue.complete_some hq
    have hacc : s.session.queued = q'.accepted := by
      rw [h.queued, WriteQueue.complete_accepted hc]
    refine ⟨q', hc, ?_⟩
    unfold Session.doWrite
    cases hwait : q.waiting with
    | nil =>
      rw [hwait] at h2 h3
      refine ⟨?_, ?_, ?_, ?_, ?_⟩
      · simp [h.toWrite, hwait, h2]
      · simp [h.toWrite, hwait, h2]
      · simp [h.toWrite, hwait, h3]
      · simp [h1, h.completed]
      · simpa [h.toWrite, hwait] using hacc
    | cons y ys =>
      rw [hwait] at h2 h3
      refine ⟨?_, ?_, ?_, ?_, ?_⟩
      · simp [h.toWrite, hwait, h2]
      · simp [h.toWrite, hwait, h2]
      · simp [h.toWrite, hwait, h3]
      · simp [h1, h.completed]
      · simpa [h.toWrite, hwait] using hacc

/-- Every run of a session that starts with a clear flag is a run of the queue. -/
theorem exists_keeps (h : (lts false).Reachable s) :
    ∃ q, (WriteQueue.lts Message).Reachable q ∧ Keeps s q := by
  refine LTS.Reachable.simulate Keeps (fun s hs => ?_) (fun s e s' q hk hs => ?_) h
  · rw [show s = start false from hs]
    exact ⟨.new, rfl, rfl, rfl, rfl, rfl, rfl⟩
  · have hs : step s e = some s' := hs
    cases e with
    | writeMessage m =>
      rw [step, Option.some.injEq] at hs
      rw [← hs]
      exact ⟨.accept m, _, rfl, hk.writeMessage m⟩
    | wrote =>
      simp only [step] at hs
      split at hs
      · cases hs
      · rename_i m ms hw
        obtain ⟨q', hc, hk'⟩ := hk.wrote hw
        rw [← Option.some.inj hs]
        exact ⟨.complete, q', hc, hk'⟩

/-- A set flag: nothing is ever written, all messages wait. -/
theorem waits_of_set (h : (lts true).Reachable s) :
    s.session.writes = [] ∧ s.session.toWrite = s.session.queued := by
  have key : (lts true).Inductive fun s => s.session.writingStarted = true ∧
      s.session.writes = [] ∧ s.session.toWrite = s.session.queued :=
    { init := fun s hs => by
        rw [show s = start true from hs]
        exact ⟨rfl, rfl, rfl⟩
      step := fun s e s' hi hs => by
        obtain ⟨hflag, hw, ht⟩ := hi
        have hs : step s e = some s' := hs
        cases e with
        | writeMessage m =>
          rw [step, Option.some.injEq] at hs
          rw [← hs]
          simp [Session.writeMessage, hflag, hw, ht]
        | wrote => simp [step, hw] at hs }
  exact (key.reachable h).2

/-- The writes of a session go as they should in every run exactly if the flag is
clear when the constructor returns. -/
theorem writes_ok_iff (writingStarted : Bool) :
    (∀ s, (lts writingStarted).Reachable s → s.WritesOk) ↔ writingStarted = false := by
  constructor
  · intro h
    cases writingStarted with
    | false => rfl
    | true =>
      have hr : (lts true).Reachable
          { start true with session := (start true).session.writeMessage .new } :=
        LTS.Reachable.step (.ofInit rfl) (l := .writeMessage .new) rfl
      obtain ⟨hw, ht⟩ := waits_of_set hr
      have hnil := (h _ hr).live hw
      rw [ht, Session.writeMessage_queued] at hnil
      simp at hnil
  · rintro rfl s hr
    obtain ⟨q, -, hk⟩ := exists_keeps hr
    exact hk.writesOk

/-- Counterexample: the memory of the flag held true, and a PONG is to be sent. -/
theorem writes_stall : ∃ s, (lts true).Reachable s ∧
    s.session.toWrite = [.createMessage .pong []] ∧ ¬ s.WritesOk := by
  have hrun : ∃ s, (lts true).Reachable s ∧ s.session.toWrite = [.createMessage .pong []] ∧
      s.session.writes = [] :=
    LTS.exists_reachable_of_exec [.writeMessage (.createMessage .pong [])] rfl (by decide)
  obtain ⟨s, hr, ht, hw⟩ := hrun
  refine ⟨s, hr, ht, fun h => ?_⟩
  rw [h.live hw] at ht
  cases ht

end SessionWrites
end ShadowTalk.Whisper
