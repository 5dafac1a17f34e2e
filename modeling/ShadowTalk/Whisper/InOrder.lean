import ShadowTalk.Whisper.Routing
import ShadowTalk.Whisper.WriteFlag

/-!
# What is written to a session of the TLS server

`WriteFlag` looks at the writes of one session, `Routing` at what the server queues. Here a
session is part of the server: its messages come from the reads of all sessions, and between
two of its own writes anything may happen.

* `Kept`: the session keeps a `WriteQueue` whose finished writes are those that completed in
  the run; `handleMessages_kept` and `step_kept` are that everything keeps it.
* `written_prefix`: the `PEER_MSG`s that were written to a session are what was due to it, in
  the order of the reads and up to some message; all of it when no write is outstanding.
-/
namespace ShadowTalk.Whisper
open ShadowTalk.Core

namespace Server

/-- The message whose `async_write` on session `t` completes. -/
def writtenTo (t : Nat) (s : Server) : Event → List Message
  | .wrote i => if i = t then (s.sessions[t]?.bind (·.writes.head?)).toList else []
  | _ => []

/-- Session `t` is made with a clear flag, and no write on it fails. -/
def WritesTo (t : Nat) (s : Server) : Event → Prop
  | .accept w => s.sessions.length = t → w = false
  | .writeFailed i => i ≠ t
  | _ => True

instance (t : Nat) (s : Server) (e : Event) : Decidable (s.WritesTo t e) :=
  match e with
  | .accept w => inferInstanceAs (Decidable (_ → w = false))
  | .writeFailed i => inferInstanceAs (Decidable (i ≠ t))
  | .handshake .. | .handshakeFailed _ | .read .. | .readFailed _ | .wrote _ =>
    inferInstanceAs (Decidable True)

/-- After the writes of `done` have completed on session `t`. -/
structure Kept (t : Nat) (done : List Message) (s : Server) : Prop where
  none : s.sessions[t]? = none → done = []
  some : ∀ x, s.sessions[t]? = some x → ∃ q, SessionWrites.Keeps ⟨x, done⟩ q

variable {Obj : Type} {env : Libs Obj} {s s' : Server} {i t : Nat} {m : Message}
  {done ms : List Message} {x : Session}

/-- A session changes, and keeps its queue if it is `t`. -/
theorem Kept.modify {f : Session → Session} (h : Kept t done s)
    (hf : ∀ x q, SessionWrites.Keeps ⟨x, done⟩ q → ∃ q', SessionWrites.Keeps ⟨f x, done⟩ q') :
    Kept t done (s.modify i f) where
  none hn := by
    refine h.none ?_
    simpa [Server.modify, List.getElem?_eq_none_iff] using hn
  some y hy := by
    obtain ⟨x, hx, rfl⟩ := Slots.getElem?_modify_some hy
    obtain ⟨q, hq⟩ := h.some x hx
    split
    · exact hf x q hq
    · exact ⟨q, hq⟩

/-- Another session changes. -/
theorem Kept.modify_other {f : Session → Session} (h : Kept t done s) (hi : i ≠ t) :
    Kept t done (s.modify i f) where
  none hn := by
    refine h.none ?_
    simpa [Server.modify, List.getElem?_eq_none_iff] using hn
  some y hy := by
    obtain ⟨x, hx, rfl⟩ := Slots.getElem?_modify_some hy
    rw [if_neg hi]
    exact h.some x hx

theorem Kept.writeMessage (h : Kept t done s) (i : Nat) (m : Message) :
    Kept t done (s.writeMessage i m) :=
  h.modify fun _ q hq => ⟨q.accept m, hq.writeMessage m⟩

theorem Kept.of_sessions (h : Kept t done s) (hs : s'.sessions = s.sessions) : Kept t done s' where
  none hn := h.none (by rw [← hs]; exact hn)
  some x hx := h.some x (by rw [← hs]; exact hx)

theorem Kept.release (h : Kept t done s) (i : Nat) : Kept t done (s.release i) := by
  refine h.of_sessions ?_
  unfold Server.release
  split
  · rfl
  · split <;> rfl

/-- What is not about writing may change. -/
theorem Kept.modify_same {f : Session → Session} (h : Kept t done s)
    (hf : ∀ x, (f x).writingStarted = x.writingStarted ∧ (f x).toWrite = x.toWrite ∧
      (f x).writes = x.writes ∧ (f x).queued = x.queued) : Kept t done (s.modify i f) := by
  refine h.modify fun x q hq => ⟨q, ?_⟩
  obtain ⟨h1, h2, h3, h4⟩ := hf x
  exact ⟨h1.trans hq.flag, h3.trans hq.writes, h2.trans hq.toWrite, hq.completed,
    h4.trans hq.queued⟩

theorem handleMessage_kept (h : Kept t done s) (i : Nat) (m : Message) :
    Kept t done (s.handleMessage env i m).1 := by
  unfold handleMessage
  split
  · exact h.writeMessage i _
  · split
    · exact h
    · split
      · exact h
      · split
        · exact h.writeMessage _ _
        · exact h
  · split
    · exact h
    · exact h.writeMessage i _
  · exact h

theorem handleMessages_kept (h : Kept t done s) (i : Nat) (ms : List Message) :
    Kept t done (handleMessages env i s ms).1 := by
  induction ms generalizing s with
  | nil => exact h
  | cons m ms ih =>
    have hm : Kept t done (s.handleMessage env i m).1 := handleMessage_kept h i m
    cases he : s.handleMessage env i m with
    | mk s' o =>
      rw [he] at hm
      cases o with
      | none =>
        rw [handleMessages_next he]
        exact ih hm
      | some e =>
        rw [handleMessages_throw he]
        exact hm

theorem onRead_kept (h : Kept t done s) (i : Nat) (x : Session) (bytes : Bytes) :
    Kept t done (s.onRead env i x bytes) := by
  have hctx : ∀ ctx, Kept t done (s.modify i fun x => { x with ctx := ctx }) := fun _ =>
    h.modify_same fun _ => ⟨rfl, rfl, rfl, rfl⟩
  unfold onRead
  split
  · exact (hctx _).of_sessions rfl
  · rename_i ctx ms _
    exact (handleMessages_kept (hctx ctx) i ms).of_sessions rfl

theorem kept_accept (h : Kept t done s) (w : Bool) (hw : s.sessions.length = t → w = false) :
    Kept t done { s with sessions := s.sessions ++ [.new w] } where
  none hn := by
    refine h.none ?_
    rw [List.getElem?_eq_none_iff, List.length_append] at hn
    rw [List.getElem?_eq_none_iff]
    omega
  some x hx := by
    rcases Nat.lt_trichotomy t s.sessions.length with hlt | rfl | hgt
    · rw [List.getElem?_append_left hlt] at hx
      exact h.some x hx
    · rw [List.getElem?_concat_length, Option.some.injEq] at hx
      rw [← hx, hw rfl, h.none (by simp)]
      exact ⟨.new, rfl, rfl, rfl, rfl, rfl⟩
    · have hlt := (List.getElem?_eq_some_iff.1 hx).1
      rw [List.length_append, List.length_singleton] at hlt
      omega

/-- The oldest write of session `i` completes. -/
theorem kept_wrote (h : Kept t done s) (hx : s.sessions[i]? = some x) (hw : x.writes ≠ []) :
    Kept t (done ++ s.writtenTo t (.wrote i))
      (s.modify i fun x => ({ x with writes := x.writes.tail } : Session).doWrite) := by
  by_cases hi : i = t
  · subst hi
    rw [writtenTo, if_pos rfl, hx]
    refine ⟨fun hn => ?_, fun y hy => ?_⟩
    · simp [Server.modify, hx] at hn
    · obtain ⟨x', hx', rfl⟩ := Slots.getElem?_modify_some hy
      obtain rfl := Option.some.inj (hx.symm.trans hx')
      obtain ⟨q, hq⟩ := h.some x hx
      obtain ⟨m, ms, hms⟩ := List.exists_cons_of_ne_nil hw
      obtain ⟨q', -, hq'⟩ := hq.wrote hms
      rw [if_pos rfl]
      refine ⟨q', ?_⟩
      simpa [hms] using hq'
  · rw [writtenTo, if_neg hi, List.append_nil]
    exact h.modify_other hi

theorem step_kept {e : Event} (h : Kept t done s) (hw : s.WritesTo t e)
    (hs : s.step env e = some s') : Kept t (done ++ s.writtenTo t e) s' := by
  cases e with
  | accept w =>
    simp only [step, Option.ite_none_right_eq_some, Option.some.injEq] at hs
    obtain ⟨-, rfl⟩ := hs
    simp only [writtenTo, List.append_nil]
    exact kept_accept h w hw
  | handshake i remote cn =>
    obtain ⟨x, -, rfl⟩ := Option.map_eq_some_iff.1 hs
    simp only [writtenTo, List.append_nil]
    unfold onHandshake
    split
    · refine Kept.of_sessions (s := s.modify i _) ?_ rfl
      exact h.modify_same fun _ => ⟨rfl, rfl, rfl, rfl⟩
    · refine Kept.of_sessions (s := s.modify i _) ?_ rfl
      exact h.modify_same fun _ => ⟨rfl, rfl, rfl, rfl⟩
  | read i bytes =>
    obtain ⟨x, -, -, -, rfl⟩ := read_eq_some hs
    simp only [writtenTo, List.append_nil]
    exact onRead_kept h i x bytes
  | wrote i =>
    obtain ⟨x, hx, rfl⟩ := Option.map_eq_some_iff.1 hs
    obtain ⟨-, hx, hp⟩ := waiting_eq_some hx
    exact (kept_wrote h hx (by simpa using hp)).release i
  | handshakeFailed i | readFailed i =>
    obtain ⟨x, -, rfl⟩ := Option.map_eq_some_iff.1 hs
    simp only [writtenTo, List.append_nil]
    refine Kept.release ?_ i
    exact h.modify_same fun _ => ⟨rfl, rfl, rfl, rfl⟩
  | writeFailed i =>
    obtain ⟨x, -, rfl⟩ := Option.map_eq_some_iff.1 hs
    simp only [writtenTo, List.append_nil]
    -- the session whose write fails is not `t`
    exact (h.modify_other hw).release i

/-! ## Whole runs -/

theorem kept_run {es : List Event} (hw : ((lts env).guard (WritesTo t)).Run start es s) :
    Kept t (LTS.outputs (step env) (writtenTo t) start es) s := by
  have hstart : Kept t [] start := ⟨fun _ => rfl, fun x hx => by simp [start] at hx⟩
  exact LTS.run_outputs_rel (R := Kept t) (fun _ _ _ _ => step_kept) hw hstart

theorem Kept.isPrefix_peerMsgs (h : Kept t done s) :
    done.filter (fun m => m.type = .peerMsg) <+: s.peerMsgs t := by
  unfold peerMsgs
  cases hx : s.sessions[t]? with
  | none =>
    rw [h.none hx]
    exact List.nil_prefix
  | some x =>
    obtain ⟨q, hq⟩ := h.some x hx
    have hqueued : done <+: x.queued := (List.prefix_append _ _).trans hq.writesOk.order
    exact hqueued.filter _

theorem Kept.eq_peerMsgs (h : Kept t done s) (hidle : ∀ x ∈ s.sessions[t]?, x.writes = []) :
    done.filter (fun m => m.type = .peerMsg) = s.peerMsgs t := by
  unfold peerMsgs
  cases hx : s.sessions[t]? with
  | none =>
    rw [h.none hx]
    rfl
  | some x =>
    obtain ⟨q, hq⟩ := h.some x hx
    have hqueued : done = x.queued := hq.completed_eq (hidle x hx)
    rw [hqueued]
    rfl

/-- The `PEER_MSG`s that were written to session `t` are the first of those that were due to
it, in the order in which they were read; when no write on `t` is outstanding, all of them. -/
theorem written_prefix {es : List Event}
    (hr : ((lts env).guard (RoutesOk env)).Run start es s)
    (hw : ((lts env).guard (WritesTo t)).Run start es s) :
    (LTS.outputs (step env) (writtenTo t) start es).filter (fun m => m.type = .peerMsg) <+:
        LTS.outputs (step env) (dueOn env t) start es ∧
      ((∀ x ∈ s.sessions[t]?, x.writes = []) →
        (LTS.outputs (step env) (writtenTo t) start es).filter (fun m => m.type = .peerMsg) =
          LTS.outputs (step env) (dueOn env t) start es) := by
  have hk := kept_run hw
  rw [← peerMsgs_run hr t]
  exact ⟨hk.isPrefix_peerMsgs, hk.eq_peerMsgs⟩

/-- Two clients with names: what one sends is written to the other. -/
example :
    (LTS.execGuard (step smallLibs) (fun s e => s.RoutesOk smallLibs e ∧ s.WritesTo 0 e) start
      (twoClients [[65]] [[66], [67]] ++ [.read 1 sendMsgBytes, .wrote 0])).isSome = true ∧
    LTS.outputs (step smallLibs) (writtenTo 0) start
      (twoClients [[65]] [[66], [67]] ++ [.read 1 sendMsgBytes, .wrote 0]) =
        [{ Message.createMessage .peerMsg [104] with src := [66], dst := [65] }] := by
  decide +kernel

end Server
end ShadowTalk.Whisper
