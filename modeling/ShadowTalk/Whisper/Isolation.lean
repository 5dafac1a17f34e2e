import ShadowTalk.Whisper.Server

/-!
# What a session can do to the others

The read handlers of all sessions run in one `io_context.run()`, and the only
`try` of the server is around it: an exception in the handler of one session is the
end of every other.

* `onRead_ended`: which bytes a session can read without that.
* `isolation_of_read`: exactly as long as all reads are of this kind does no read
  handler end the server; then a read leaves the other connections and the registry
  alone, and everything that is waited for can still complete.
* `isolation_lost`: one byte that msgpack never uses.
-/
namespace ShadowTalk.Whisper
open ShadowTalk.Core

namespace Server

section
variable {Obj : Type} (env : Libs Obj)

/-- No exception: the receiver and the sender have a name, the listing is a text. -/
def MessageOk (s : Server) (i : Nat) (m : Message) : Prop :=
  (∀ t ∈ s.target m, s.HasNames i t) ∧ (m.type = .listPeers → s.Dumpable env)

instance (s : Server) (i : Nat) (m : Message) : Decidable (s.MessageOk env i m) :=
  inferInstanceAs (Decidable (_ ∧ _))

/-- No object of the stream is malformed or of another shape, and all messages that
are now complete can be handled. -/
def ReadOk (s : Server) : Event → Prop
  | .read i bytes => ∀ x ∈ s.sessions[i]?, ¬ env.mp.Fails (x.ctx.unp ++ bytes) ∧
      ∀ m ∈ env.mp.messages (x.ctx.unp ++ bytes), s.MessageOk env i m
  | _ => True

instance (s : Server) (e : Event) : Decidable (s.ReadOk env e) :=
  match e with
  | .read i _ => inferInstanceAs (Decidable (∀ x ∈ s.sessions[i]?, _ ∧ _))
  | .accept _ | .handshake .. | .handshakeFailed _ | .readFailed _ | .wrote _ | .writeFailed _ =>
    inferInstanceAs (Decidable True)

end

/-- `run()` was left by an exception of a read handler: `remote_endpoint` throws in
the handler of the handshake only. -/
def EndedByRead (s : Server) : Prop := ∃ x, s.ended = some x ∧ x ≠ .systemError

variable {Obj : Type} {env : Libs Obj} {s s' : Server} {i : Nat} {m : Message}
  {ms : List Message} {x : Session} {bytes : Bytes}

/-! ## One read -/

theorem Frame.messageOk (h : Frame s s') (i : Nat) (m : Message) :
    s'.MessageOk env i m ↔ s.MessageOk env i m := by
  unfold MessageOk
  rw [h.target, h.dumpable]
  simp only [h.hasNames]

theorem handleMessage_ok (h : Inv s) (i : Nat) (m : Message) :
    (s.handleMessage env i m).2 = none ↔ s.MessageOk env i m := by
  unfold MessageOk
  cases he : s.handleMessage env i m with
  | mk s' o =>
    cases handling h he with
    | routed t ht hn hl => simp [ht, hn, hl]
    | nameless t ht hn hl => simp [ht, hn]
    | replied r ht hr hd => simpa [ht] using hd
    | unlistable ht hl hd => simp [ht, hl, hd]
    | ignored ht hl => simp [ht, hl]

theorem handleMessages_ok (h : Inv s) (hi : ∃ x, s.lock i = some x) (ms : List Message) :
    (handleMessages env i s ms).2 = none ↔ ∀ m ∈ ms, s.MessageOk env i m := by
  induction ms generalizing s with
  | nil => simp [handleMessages]
  | cons m ms ih =>
    have hm : (s.handleMessage env i m).2 = none ↔ s.MessageOk env i m := handleMessage_ok h i m
    have hf : Frame s (s.handleMessage env i m).1 := handleMessage_frame hi m
    rw [List.forall_mem_cons, ← hm]
    cases he : s.handleMessage env i m with
    | mk s' o =>
      rw [he] at hf
      cases o with
      | some e => simp [handleMessages_throw he]
      | none =>
        rw [handleMessages_next he, ih (h.of_frame hf) (hf.exists_lock hi)]
        simp only [hf.messageOk, true_and]

/-- What a message throws is not what `remote_endpoint` throws. -/
theorem handleMessages_exc (h : Inv s) (hi : ∃ x, s.lock i = some x) (ms : List Message) :
    (handleMessages env i s ms).2 ≠ some .systemError := by
  induction ms generalizing s with
  | nil => simp [handleMessages]
  | cons m ms ih =>
    have hf : Frame s (s.handleMessage env i m).1 := handleMessage_frame hi m
    cases he : s.handleMessage env i m with
    | mk s' o =>
      rw [he] at hf
      cases handling h he with
      | routed | replied | ignored =>
        rw [handleMessages_next he]
        exact ih (h.of_frame hf) (hf.exists_lock hi)
      | nameless | unlistable => simp [handleMessages_throw he]

/-- Exactly what `ReadOk` says ends no server. -/
theorem onRead_ended (env : Libs Obj) (h : Inv s) (hx : s.sessions[i]? = some x)
    (hr : x.reading = true) (bytes : Bytes) :
    ((s.onRead env i x bytes).ended = none ↔ s.ReadOk env (.read i bytes)) ∧
      (s.onRead env i x bytes).ended ≠ some .systemError := by
  have hok : s.ReadOk env (.read i bytes) ↔ ¬ env.mp.Fails (x.ctx.unp ++ bytes) ∧
      ∀ m ∈ env.mp.messages (x.ctx.unp ++ bytes), s.MessageOk env i m := by
    unfold ReadOk
    simp [hx]
  rw [hok]
  by_cases hf : env.mp.Fails (x.ctx.unp ++ bytes)
  · obtain ⟨c, e, he, hread⟩ := onRead_error (s := s) (i := i) hf
    rw [hread]
    refine ⟨by simp [hf], ?_⟩
    rcases he with rfl | rfl <;> simp
  · obtain ⟨r, hscan⟩ := scan_of_not_fails hf
    rw [onRead_ok hscan]
    simp only [hf, not_false_eq_true, true_and]
    -- the messages are handled with the context already changed
    have hctx := frame_ctx hx hr ⟨r⟩
    have hi := hctx.exists_lock ⟨x, lock_of_reading hx hr⟩
    refine ⟨?_, handleMessages_exc (h.of_frame hctx) hi _⟩
    rw [handleMessages_ok (h.of_frame hctx) hi]
    simp only [hctx.messageOk]

/-! ## The other sessions -/

/-- No message changes what a session has buffered. -/
theorem handleMessage_ctx (env : Libs Obj) (h : Inv s) (i : Nat) (m : Message) (k : Nat) :
    ((s.handleMessage env i m).1.sessions[k]?).map (·.ctx) = s.sessions[k]?.map (·.ctx) := by
  have hwrite : ∀ t r, ((s.writeMessage t r).sessions[k]?).map (·.ctx) =
      s.sessions[k]?.map (·.ctx) := by
    intro t r
    have := Slots.map_modify_of_eq (Session.writeMessage_ctx r) s.sessions t
    rw [← List.getElem?_map, ← List.getElem?_map]
    exact congrArg (·[k]?) this
  cases he : s.handleMessage env i m with
  | mk s' o =>
    cases handling h he with
    | routed | replied => exact hwrite _ _
    | nameless | unlistable | ignored => rfl

theorem handleMessages_ctx (h : Inv s) (hi : ∃ x, s.lock i = some x) (ms : List Message) (k : Nat) :
    ((handleMessages env i s ms).1.sessions[k]?).map (·.ctx) = s.sessions[k]?.map (·.ctx) := by
  induction ms generalizing s with
  | nil => rfl
  | cons m ms ih =>
    have hf : Frame s (s.handleMessage env i m).1 := handleMessage_frame hi m
    have hc := handleMessage_ctx env h i m k
    cases he : s.handleMessage env i m with
    | mk s' o =>
      rw [he] at hc hf
      cases o with
      | some e =>
        rw [handleMessages_throw he]
        exact hc
      | none =>
        rw [handleMessages_next he]
        exact (ih (h.of_frame hf) (hf.exists_lock hi)).trans hc

theorem onRead_ctx (h : Inv s) (hx : s.sessions[i]? = some x) (hr : x.reading = true)
    (bytes : Bytes) {k : Nat} (hk : k ≠ i) :
    ((s.onRead env i x bytes).sessions[k]?).map (·.ctx) = s.sessions[k]?.map (·.ctx) := by
  have hother : ∀ ctx, ((s.modify i fun x => { x with ctx := ctx }).sessions[k]?).map (·.ctx) =
      s.sessions[k]?.map (·.ctx) := by
    intro ctx
    simp [Server.modify, hk.symm]
  by_cases hf : env.mp.Fails (x.ctx.unp ++ bytes)
  · obtain ⟨c, e, -, hread⟩ := onRead_error (s := s) (i := i) hf
    rw [hread]
    exact hother c
  · obtain ⟨r, hscan⟩ := scan_of_not_fails hf
    have hctx := frame_ctx hx hr ⟨r⟩
    have hi := hctx.exists_lock ⟨x, lock_of_reading hx hr⟩
    rw [onRead_ok hscan]
    exact (handleMessages_ctx (h.of_frame hctx) hi _ k).trans (hother ⟨r⟩)

theorem waiting_isSome {p : Session → Bool} (he : s'.ended = none)
    (h : (s.waiting i p).isSome = true)
    (hp : ∀ x, s.sessions[i]? = some x → p x = true →
      ∃ y, s'.sessions[i]? = some y ∧ p y = true) : (s'.waiting i p).isSome = true := by
  obtain ⟨x, hw⟩ := Option.isSome_iff_exists.1 h
  obtain ⟨-, hx, hpx⟩ := waiting_eq_some hw
  obtain ⟨y, hy, hpy⟩ := hp x hx hpx
  unfold waiting
  rw [if_pos he, hy, Option.filter_some_pos hpy]
  rfl

/-- Whatever could complete still can. -/
theorem Frame.enabled (hf : Frame s s') (he : s'.ended = none) {e : Event}
    (h : (s.step env e).isSome = true) : (s'.step env e).isSome = true := by
  have hconn : ∀ {k : Nat} {p : Session → Bool} (q : Session.Conn → Bool),
      (∀ x, p x = q x.conn) → (s.waiting k p).isSome = true → (s'.waiting k p).isSome = true := by
    intro k p q hq hw
    refine waiting_isSome he hw fun x hx hpx => ?_
    have hc := congrArg (fun l : List Session.Conn => l[k]?) hf.conn
    simp only [List.getElem?_map, hx, Option.map_some, Option.map_eq_some_iff] at hc
    obtain ⟨y, hy, hyx⟩ := hc
    refine ⟨y, hy, ?_⟩
    rw [hq, hyx, ← hq]
    exact hpx
  have hwrites : ∀ {k : Nat}, (s.waiting k (!·.writes.isEmpty)).isSome = true →
      (s'.waiting k (!·.writes.isEmpty)).isSome = true := by
    intro k hw
    refine waiting_isSome he hw fun x hx hpx => ?_
    obtain ⟨y, hy, hwy⟩ := hf.writes k x hx (by simpa using hpx)
    exact ⟨y, hy, by simpa using hwy⟩
  cases e with
  | accept w => simp [step, he]
  | handshake i remote cn =>
    simp only [step, Option.isSome_map] at h ⊢
    exact hconn (·.handshaking) (fun _ => rfl) h
  | handshakeFailed i =>
    simp only [step, Option.isSome_map] at h ⊢
    exact hconn (·.handshaking) (fun _ => rfl) h
  | read i bytes =>
    simp only [step] at h ⊢
    split at h
    · cases h
    · rename_i hb
      rw [if_neg hb, Option.isSome_map]
      rw [Option.isSome_map] at h
      exact hconn (·.reading) (fun _ => rfl) h
  | readFailed i =>
    simp only [step, Option.isSome_map] at h ⊢
    exact hconn (·.reading) (fun _ => rfl) h
  | wrote i =>
    simp only [step, Option.isSome_map] at h ⊢
    exact hwrites h
  | writeFailed i =>
    simp only [step, Option.isSome_map] at h ⊢
    exact hwrites h

/-! ## Every run -/

/-- Only handlers of reads and handshakes throw. -/
theorem step_ended {e : Event} (h : s.step env e = some s') (hne : ∀ i b, e ≠ .read i b) :
    ¬ s'.EndedByRead := by
  have hnone : s'.ended = none ∨ s'.ended = some .systemError := by
    have hrelease : ∀ (t : Server) i, (t.release i).ended = t.ended := by
      intro t i
      unfold release
      split
      · rfl
      · split <;> rfl
    cases e with
    | accept w =>
      simp only [step, Option.ite_none_right_eq_some, Option.some.injEq] at h
      obtain ⟨he, rfl⟩ := h
      exact .inl he
    | handshake i remote cn =>
      obtain ⟨x, hx, rfl⟩ := Option.map_eq_some_iff.1 h
      obtain ⟨he, -, -⟩ := waiting_eq_some hx
      unfold onHandshake
      split
      · exact .inr rfl
      · exact .inl he
    | read i bytes => exact absurd rfl (hne i bytes)
    | handshakeFailed i | readFailed i | wrote i | writeFailed i =>
      obtain ⟨x, hx, rfl⟩ := Option.map_eq_some_iff.1 h
      obtain ⟨he, -, -⟩ := waiting_eq_some hx
      exact .inl ((hrelease _ i).trans he)
  rintro ⟨y, hy, hne⟩
  rcases hnone with h | h
  · rw [h] at hy
    cases hy
  · rw [h, Option.some.injEq] at hy
    exact hne hy.symm

theorem read_endedByRead (h : Inv s) (hs : s.step env (.read i bytes) = some s') :
    ¬ s'.EndedByRead ↔ s.ReadOk env (.read i bytes) := by
  obtain ⟨x, -, hx, hr, rfl⟩ := read_eq_some hs
  obtain ⟨hiff, hne⟩ := onRead_ended env h hx hr bytes
  rw [← hiff]
  constructor
  · intro hn
    cases he : (s.onRead env i x bytes).ended with
    | none => rfl
    | some y =>
      refine absurd ⟨y, he, ?_⟩ hn
      rintro rfl
      exact hne he
  · rintro he ⟨y, hy, -⟩
    rw [he] at hy
    cases hy

/-- No read handler ends the server in exactly the runs all of whose reads meet
`ReadOk`. Such a read leaves the registry and all other connections alone, and
everything that could happen before it still can. -/
theorem isolation_of_read {Obj : Type} (env : Libs Obj) :
    (lts env).Exact (ReadOk env) (fun s => ¬ s.EndedByRead) ∧
    ∀ s i bytes s', (lts env).Reachable s → (lts env).step s (.read i bytes) s' →
      ReadOk env s (.read i bytes) →
        s'.registry = s.registry ∧
        (∀ k, k ≠ i → s'.sessions[k]?.map Session.conn = s.sessions[k]?.map Session.conn ∧
          s'.sessions[k]?.map Session.ctx = s.sessions[k]?.map Session.ctx) ∧
        ∀ e, (s.step env e).isSome = true → (s'.step env e).isSome = true := by
  have hinv := inv_inductive env
  refine ⟨?_, ?_⟩
  · have key : ((lts env).guard (ReadOk env)).Inductive fun s => Inv s ∧ ¬ s.EndedByRead := by
      refine hinv.of_guard.and ?_ ?_
      · rintro s hs ⟨y, hy, -⟩
        rw [hs] at hy
        cases hy
      · intro s e s' hs _ _ hst
        by_cases he : ∃ i b, e = .read i b
        · obtain ⟨i, b, rfl⟩ := he
          exact (read_endedByRead hs hst.1).2 hst.2
        · exact step_ended hst.1 fun i b hb => he ⟨i, b, hb⟩
    refine key.exact (fun s h => h.2) fun s e s' hs hst hn => ?_
    cases e with
    | read i b => exact (read_endedByRead hs.1 hst).1 hn
    | accept | handshake | handshakeFailed | readFailed | wrote | writeFailed => trivial
  · intro s i bytes s' hreach hst hok
    have hs := hinv.reachable hreach
    obtain ⟨x, -, hx, hr, rfl⟩ := read_eq_some hst
    have hf : Frame s (s.onRead env i x bytes) := onRead_frame hx hr bytes
    refine ⟨hf.registry, fun k hk => ⟨?_, onRead_ctx hs hx hr bytes hk⟩, fun e => ?_⟩
    · have hc := congrArg (fun l : List Session.Conn => l[k]?) hf.conn
      simpa using hc
    · exact hf.enabled ((onRead_ended env hs hx hr bytes).1.2 hok)

/-- A client asks for the listing and sends a message to another one. -/
theorem isolation_of_read_sendTrace : ∃ s, (lts smallLibs).Reachable s ∧ ¬ s.EndedByRead ∧
    s.sessions.map (fun x => x.queued.length) = [2, 0] := by
  have hrun : ∃ s, ((lts smallLibs).guard (ReadOk smallLibs)).Reachable s ∧
      s.sessions.map (fun x => x.queued.length) = [2, 0] :=
    LTS.exists_reachable_of_execGuard (twoClients [[65]] [[66]] ++
      [.read 0 listPeersBytes, .read 1 sendMsgBytes]) rfl (by decide +kernel)
  obtain ⟨s, hs, hq⟩ := hrun
  exact ⟨s, hs.of_guard, (isolation_of_read smallLibs).1.sound s hs, hq⟩

/-- Counterexample: a client sends the byte `0xc1`, and the server ends while it
reads from the other one. -/
theorem isolation_lost : ∃ s, (lts smallLibs).Reachable s ∧ s.EndedByRead ∧
    s.sessions[1]?.map Session.reading = some true ∧
      s.step smallLibs (.read 1 pingBytes) = none := by
  have hrun : ∃ s, (lts smallLibs).Reachable s ∧ s.ended = some .parseError ∧
      s.sessions[1]?.map Session.reading = some true ∧
      s.step smallLibs (.read 1 pingBytes) = none :=
    LTS.exists_reachable_of_exec (twoClients [[65]] [[66]] ++ [.read 0 [193]]) rfl
      (by decide +kernel)
  obtain ⟨s, hs, he, hr, hn⟩ := hrun
  exact ⟨s, hs, ⟨_, he, by decide⟩, hr, hn⟩

end Server
end ShadowTalk.Whisper
