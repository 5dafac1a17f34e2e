import ShadowTalk.Core.WriteQueue
import ShadowTalk.Grpc.Server

/-!
# The queue of a relay writer

A `PeerMessageWriter` on its own: `Write` is called by the handlers of other
users, `Proceed` when the `stream.Write` that is under way has completed.

* `WriterRun.step_write`, `WriterRun.step_wrote`: both are steps of a `WriteQueue`,
  where the front of `to_write_` is the message that is being written.
* `writer_disciplined`: in every run the writer is `RUNNING` exactly while one write
  is under way, and that is while `to_write_` is not empty.
-/
namespace ShadowTalk.Grpc
open ShadowTalk.Core

/-- `accepted` is what `Write` was called with, `written` what `stream.Write` was
called with; `outstanding` counts the writes that have not completed. -/
structure WriterRun where
  writer : PeerMessageWriter
  accepted : List Relayed
  written : List Relayed
  outstanding : Nat
  deriving DecidableEq

namespace WriterRun

inductive Event where
  /-- `Write` is called -/
  | write (m : Relayed)
  /-- a write has completed: `Proceed(true)` -/
  | wrote
  deriving DecidableEq

def start : WriterRun := ⟨.new, [], [], 0⟩

/-- The writer goes on and hands some messages to the stream. -/
def give (s : WriterRun) (r : PeerMessageWriter × List Relayed) : WriterRun :=
  { s with
    writer := r.1
    written := s.written ++ r.2
    outstanding := s.outstanding + r.2.length }

/-- A completion needs a write that is outstanding. -/
def step (s : WriterRun) : Event → Option WriterRun
  | .write m => some (({ s with accepted := s.accepted ++ [m] } : WriterRun).give (s.writer.write m))
  | .wrote =>
    if 0 < s.outstanding then
      some (({ s with outstanding := s.outstanding - 1 } : WriterRun).give s.writer.wrote)
    else none

def lts : LTS WriterRun Event := .ofFn (· = start) step

/-! ## The writer keeps a write queue -/

/-- The queue that the writer stands for. -/
structure Keeps (s : WriterRun) (q : WriteQueue Relayed) : Prop where
  toWrite : s.writer.toWrite = q.inFlight.toList ++ q.waiting
  status : s.writer.status = .idle ↔ q.inFlight = none
  accepted : s.accepted = q.accepted
  written : s.written = q.handed
  outstanding : s.outstanding = q.outstanding

variable {s s' : WriterRun} {q : WriteQueue Relayed}

theorem Keeps.write (h : Keeps s q) (m : Relayed) :
    Keeps (({ s with accepted := s.accepted ++ [m] } : WriterRun).give (s.writer.write m))
      (q.accept m) := by
  rcases q.inFlight.eq_none_or_eq_some with hq | ⟨x, hq⟩
  · obtain ⟨h1, h2, h3⟩ := WriteQueue.accept_idle hq m
    have hw : s.writer.write m = (⟨.running, [m]⟩, [m]) := by
      unfold PeerMessageWriter.write
      rw [h.status.2 hq, h.toWrite, hq, q.idle hq]
      rfl
    refine ⟨?_, ?_, ?_, ?_, ?_⟩
    · simp [give, hw, h2, h3]
    · simp [give, hw, h2]
    · simp [give, h.accepted, WriteQueue.accept_accepted]
    · simp [give, hw, h.written, WriteQueue.handed, h1, h2, hq]
    · simp [give, hw, h.outstanding, WriteQueue.outstanding, h2, hq]
  · obtain ⟨h1, h2, h3⟩ := WriteQueue.accept_busy hq m
    have hst : s.writer.status = .running := by
      cases hs : s.writer.status with
      | running => rfl
      | idle => rw [h.status.1 hs] at hq; cases hq
    have hw : s.writer.write m = (⟨.running, s.writer.toWrite ++ [m]⟩, []) := by
      unfold PeerMessageWriter.write
      rw [hst]
    refine ⟨?_, ?_, ?_, ?_, ?_⟩
    · simp [give, hw, h2, h3, h.toWrite, hq]
    · simp [give, hw, h2]
    · simp [give, h.accepted, WriteQueue.accept_accepted]
    · simp [give, hw, h.written, WriteQueue.handed, h1, h2, hq]
    · simp [give, hw, h.outstanding, WriteQueue.outstanding, h2, hq]

theorem Keeps.inFlight (h : Keeps s q) (h0 : 0 < s.outstanding) : ∃ x, q.inFlight = some x := by
  rcases q.inFlight.eq_none_or_eq_some with hq | hx
  · rw [h.outstanding, WriteQueue.outstanding_eq_zero.2 hq] at h0
    cases h0
  · exact hx

theorem Keeps.wrote (h : Keeps s q) (h0 : 0 < s.outstanding) : ∃ q', q.complete = some q' ∧
    Keeps (({ s with outstanding := s.outstanding - 1 } : WriterRun).give s.writer.wrote) q' := by
  obtain ⟨x, hq⟩ := h.inFlight h0
  obtain ⟨q', hc, h1, h2, h3⟩ := WriteQueue.complete_some hq
  have hone : s.outstanding = 1 := by rw [h.outstanding, WriteQueue.outstanding, hq]; rfl
  have htail : s.writer.toWrite.tail = q.waiting := by rw [h.toWrite, hq]; rfl
  have hacc : s.accepted = q'.accepted := by rw [h.accepted, WriteQueue.complete_accepted hc]
  refine ⟨q', hc, ?_⟩
  cases hw : q.waiting with
  | nil =>
    rw [hw] at h2 h3
    have hr : s.writer.wrote = (⟨.idle, []⟩, []) := by
      unfold PeerMessageWriter.wrote
      simp only [htail, hw]
    refine ⟨?_, ?_, hacc, ?_, ?_⟩
    · simp [give, hr, h2, h3]
    · simp [give, hr, h2]
    · simp [give, hr, h.written, WriteQueue.handed, h1, h2, hq]
    · simp [give, hr, hone, WriteQueue.outstanding, h2]
  | cons m ms =>
    rw [hw] at h2 h3
    have hr : s.writer.wrote = (⟨s.writer.status, m :: ms⟩, [m]) := by
      unfold PeerMessageWriter.wrote
      simp only [htail, hw]
    have hst : s.writer.status ≠ .idle := fun hs => by rw [h.status.1 hs] at hq; cases hq
    refine ⟨?_, ?_, hacc, ?_, ?_⟩
    · simp [give, hr, h2, h3]
    · simp [give, hr, h2, hst]
    · simp [give, hr, h.written, WriteQueue.handed, h1, h2, hq]
    · simp [give, hr, hone, WriteQueue.outstanding, h2]

/-- Every run of the writer is a run of the queue. -/
theorem exists_keeps (h : lts.Reachable s) :
    ∃ q, (WriteQueue.lts Relayed).Reachable q ∧ Keeps s q := by
  refine LTS.Reachable.simulate Keeps (fun s hs => ?_) (fun s e s' q hk hs => ?_) h
  · rw [show s = start from hs]
    exact ⟨.new, rfl, rfl, iff_of_true rfl rfl, rfl, rfl, rfl⟩
  · have hs : step s e = some s' := hs
    cases e with
    | write m =>
      rw [step, Option.some.injEq] at hs
      rw [← hs]
      exact ⟨.accept m, _, rfl, hk.write m⟩
    | wrote =>
      simp only [step] at hs
      split at hs
      · rename_i h0
        obtain ⟨q', hc, hk'⟩ := hk.wrote h0
        rw [← Option.some.inj hs]
        exact ⟨.complete, q', hc, hk'⟩
      · cases hs

/-- In every state: `RUNNING` means that messages are queued, and that exactly one
write is outstanding; a completion finds a message to pop; what `stream.Write` got
is a prefix of what `Write` got, and all of it when no write is outstanding. -/
theorem writer_disciplined (h : lts.Reachable s) :
    (s.writer.status = .running ↔ s.writer.toWrite ≠ []) ∧
      (s.writer.status = .running ↔ s.outstanding = 1) ∧ s.outstanding ≤ 1 ∧
      (∀ s', step s .wrote = some s' → s.writer.toWrite ≠ []) ∧
      s.written <+: s.accepted ∧ (s.outstanding = 0 → s.written = s.accepted) := by
  obtain ⟨q, -, hk⟩ := exists_keeps h
  have hle := q.outstanding_le
  have hpre := q.handed_prefix
  have hall := fun h => WriteQueue.handed_of_idle (q := q) h
  rw [← hk.written, ← hk.accepted] at hpre hall
  rw [← hk.outstanding] at hle
  rcases q.inFlight.eq_none_or_eq_some with hq | ⟨x, hq⟩
  · have hst := hk.status.2 hq
    have h0 : s.outstanding = 0 := by rw [hk.outstanding, WriteQueue.outstanding_eq_zero.2 hq]
    have hnil : s.writer.toWrite = [] := by rw [hk.toWrite, hq, q.idle hq]; rfl
    refine ⟨by simp [hst, hnil], by simp [hst, h0], hle, fun s' hs => ?_, hpre, fun _ => hall hq⟩
    simp [step, h0] at hs
  · have hst : s.writer.status = .running := by
      cases hs : s.writer.status with
      | running => rfl
      | idle => rw [hk.status.1 hs] at hq; cases hq
    have h1 : s.outstanding = 1 := by rw [hk.outstanding, WriteQueue.outstanding, hq]; rfl
    have hne : s.writer.toWrite ≠ [] := by rw [hk.toWrite, hq]; simp
    exact ⟨by simp [hst, hne], by simp [hst, h1], hle, fun _ _ => hne, hpre,
      fun h0 => by rw [h1] at h0; cases h0⟩

/-- Two messages, and the first one is written. -/
theorem writer_disciplined_two : ∃ s : WriterRun, s.accepted.length = 2 ∧
    s.writer.status = .running ∧ s.outstanding = 1 ∧ s.written <+: s.accepted := by
  have hrun : ∃ s, lts.Reachable s ∧ s.accepted.length = 2 ∧ s.outstanding = 1 :=
    LTS.exists_reachable_of_exec [.write ⟨.new, 0⟩, .write ⟨.new, 1⟩, .wrote] rfl
      (by decide)
  obtain ⟨s, hr, hlen, h1⟩ := hrun
  obtain ⟨-, hst, -, -, hpre, -⟩ := writer_disciplined hr
  exact ⟨s, hlen, hst.2 h1, h1, hpre⟩

end WriterRun
end ShadowTalk.Grpc
