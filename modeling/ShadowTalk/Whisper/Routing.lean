import ShadowTalk.Whisper.Server

/-!
# Routing in the TLS server

A `SEND_MSG` is passed on, as a `PEER_MSG`, to the session that is registered under
its destination. `peerMsgs t` are those that session `t` was ever given, in order.

* `handleMessages_sent`: what the loop over the messages queues, up to the first
  name it does not find.
* `routing_of_named`: a step queues what is due and takes the front of no empty list
  exactly if the sender of every message that is passed on is registered, and it
  and the receiver have a name; as long as all steps are of this kind, each session
  was given exactly what was due, in the order in which it was read.
* `routing_unchecked`: a sender without a name, and one that is not registered.

A session is not registered if another one had its address when its handshake
ended, or when that other one is released later.
-/
namespace ShadowTalk.Whisper
open ShadowTalk.Core

namespace Server

/-- Session `t` is alive and found under its address. -/
def Registered (s : Server) (t : Nat) : Prop :=
  (s.names t).bind (fun n => s.registry.find? n.1) = some t

instance (s : Server) (t : Nat) : Decidable (s.Registered t) := inferInstanceAs (Decidable (_ = _))

/-- The `PEER_MSG`s that session `t` was given. -/
def peerMsgs (s : Server) (t : Nat) : List Message :=
  (s.sessions[t]?.map fun x => x.queued.filter fun m => m.type = .peerMsg).getD []

/-- What session `t` has to be given for `m`, read from session `i`. -/
def due (s : Server) (i t : Nat) (m : Message) : List Message :=
  if m.type = .sendMsg ∧ s.Registered i ∧ s.Registered t ∧ (s.names t).map (·.1) = some m.dst then
    [s.peerMsg i t m]
  else []

section
variable {Obj : Type} (env : Libs Obj)

/-- As far as the loop gets: the listing of names that are no text throws. -/
def untilUnlistable (s : Server) (ms : List Message) : List Message :=
  if s.Dumpable env then ms else ms.takeWhile fun m => m.type ≠ .listPeers

/-- The messages that session `i` hands on when it reads the bytes; none if `Feed`
throws. -/
def handled (s : Server) (i : Nat) (bytes : Bytes) : List Message :=
  (s.sessions[i]?.map fun x =>
    if env.mp.Fails (x.ctx.unp ++ bytes) then []
    else s.untilUnlistable env (env.mp.messages (x.ctx.unp ++ bytes))).getD []

def dueOn (t : Nat) (s : Server) : Event → List Message
  | .read i bytes => (s.handled env i bytes).flatMap (s.due i t)
  | _ => []

/-- The step queues what is due, and takes the front of no empty list. -/
def Routed (s : Server) (e : Event) (s' : Server) : Prop :=
  s'.ended ≠ some .emptyFront ∧ ∀ t, s'.peerMsgs t = s.peerMsgs t ++ s.dueOn env t e

/-- Whoever sends to a registered session is registered, and both have a name. -/
def RoutesOk (s : Server) : Event → Prop
  | .read i bytes => ∀ m ∈ s.handled env i bytes, ∀ t ∈ s.target m,
      s.Registered i ∧ s.HasNames i t
  | _ => True

instance (s : Server) (e : Event) : Decidable (s.RoutesOk env e) :=
  match e with
  | .read i bytes => inferInstanceAs (Decidable (∀ m ∈ s.handled env i bytes, _))
  | .accept _ | .handshake .. | .handshakeFailed _ | .readFailed _ | .wrote _ | .writeFailed _ =>
    inferInstanceAs (Decidable True)

end

variable {Obj : Type} {env : Libs Obj} {s s' : Server} {i k t : Nat} {m : Message}
  {ms : List Message} {x : Session} {bytes : Bytes}

/-! ## One message -/

/-- What session `t` is given for `m`. -/
def sent (s : Server) (i t : Nat) (m : Message) : List Message :=
  if s.target m = some t then [s.peerMsg i t m] else []

theorem registered_of_target (h : Inv s) (ht : s.target m = some t) :
    m.type = .sendMsg ∧ s.Registered t ∧ (s.names t).map (·.1) = some m.dst := by
  unfold Server.target at ht
  split at ht
  · rename_i hm
    obtain ⟨x, hx, ha, -⟩ := h.registry _ t ht
    have hn : s.names t = some (m.dst, x.cn) := by
      unfold Server.names
      rw [hx, Option.map_some, ha]
    refine ⟨hm, ?_, ?_⟩
    · unfold Registered
      rw [hn]
      exact ht
    · rw [hn]
      rfl
  · cases ht

/-- Given the sender is registered, that is what is due. -/
theorem due_of_registered (h : Inv s) (hi : s.Registered i) (t : Nat) (m : Message) :
    s.due i t m = s.sent i t m := by
  have hiff : (m.type = .sendMsg ∧ s.Registered i ∧ s.Registered t ∧
      (s.names t).map (·.1) = some m.dst) ↔ s.target m = some t := by
    constructor
    · rintro ⟨hm, -, hreg, haddr⟩
      obtain ⟨n, hn, hdst⟩ := Option.map_eq_some_iff.1 haddr
      unfold Registered at hreg
      rw [hn, Option.bind_some, hdst] at hreg
      exact (if_pos hm).trans hreg
    · intro ht
      obtain ⟨hm, hreg, haddr⟩ := registered_of_target h ht
      exact ⟨hm, hi, hreg, haddr⟩
  unfold due sent
  simp only [hiff]

theorem due_of_not_registered (hi : ¬ s.Registered i) (t : Nat) (m : Message) :
    s.due i t m = [] := by
  unfold due
  rw [if_neg]
  exact fun h => hi h.2.1

theorem sent_eq_nil : (∀ t, s.sent i t m = []) ↔ s.target m = none := by
  unfold sent
  constructor
  · intro h
    cases ht : s.target m with
    | none => rfl
    | some t => simpa [ht] using h t
  · intro h t
    simp [h]

/-- What is given is what is due for all sessions exactly if the sender is
registered or has sent to nobody. -/
theorem sent_eq_due (h : Inv s) (ms : List Message) :
    (∀ t, ms.flatMap (s.sent i t) = ms.flatMap (s.due i t)) ↔
      ∀ m ∈ ms, ∀ t ∈ s.target m, s.Registered i := by
  by_cases hi : s.Registered i
  · refine iff_of_true (fun t => ?_) fun _ _ _ _ => hi
    exact List.flatMap_congr fun m _ => (due_of_registered h hi t m).symm
  · have hdue : ∀ t, ms.flatMap (s.due i t) = [] := fun t =>
      List.flatMap_eq_nil_iff.2 fun m _ => due_of_not_registered hi t m
    simp only [hdue, List.flatMap_eq_nil_iff, hi, imp_false]
    constructor
    · intro hs m hm t ht
      rw [sent_eq_nil.1 fun u => hs u m hm] at ht
      cases ht
    · intro hs t m hm
      refine sent_eq_nil.2 ?_ t
      exact Option.eq_none_iff_forall_not_mem.2 (hs m hm)

theorem Frame.sent (h : Frame s s') (i t : Nat) (m : Message) : s'.sent i t m = s.sent i t m := by
  unfold Server.sent peerMsg
  rw [h.target, h.getCommonName, h.getCommonName]

/-! ## What is queued -/

theorem peerMsgs_modify {f : Session → Session} (hf : ∀ x, (f x).queued = x.queued) :
    (s.modify i f).peerMsgs t = s.peerMsgs t := by
  unfold peerMsgs modify
  simp only [List.getElem?_modify]
  cases s.sessions[t]? with
  | none => rfl
  | some x =>
    by_cases hk : i = t
    · simp [hk, hf]
    · simp [hk]

theorem peerMsgs_writeMessage (h : s.lock k = some x) (m : Message) (t : Nat) :
    (s.writeMessage k m).peerMsgs t =
      s.peerMsgs t ++ if k = t ∧ m.type = .peerMsg then [m] else [] := by
  obtain ⟨hx, -⟩ := lock_eq_some.1 h
  unfold peerMsgs writeMessage modify
  simp only [List.getElem?_modify]
  by_cases hk : k = t
  · subst hk
    by_cases hm : m.type = .peerMsg
    · simp [hx, hm, List.filter_append]
    · simp [hx, hm, List.filter_append]
  · simp [hk]

/-- A message that throws nothing queues what it sends; else a name is missing, or
the listing is no text. -/
theorem handleMessage_sent {o : Option Exc} (h : Inv s) (hi : ∃ x, s.lock i = some x)
    (he : s.handleMessage env i m = (s', o)) :
    (o = none ∧ (m.type = .listPeers → s.Dumpable env) ∧ (∀ t ∈ s.target m, s.HasNames i t) ∧
        ∀ t, s'.peerMsgs t = s.peerMsgs t ++ s.sent i t m) ∨
      (o = some .emptyFront ∧ m.type ≠ .listPeers ∧ ∃ t ∈ s.target m, ¬ s.HasNames i t) ∨
      (o = some .jsonTypeError ∧ s' = s ∧ m.type = .listPeers ∧ ¬ s.Dumpable env) := by
  obtain ⟨x, hx⟩ := hi
  cases handling h he with
  | routed u hu hn hl =>
    refine .inl ⟨rfl, fun hm => absurd hm hl, fun t ht => ?_, fun t => ?_⟩
    · obtain rfl := Option.some.inj (hu.symm.trans ht)
      exact hn
    · have hreg := (registered_of_target h hu).2.1
      unfold Registered Server.names at hreg
      cases hy : s.lock u with
      | none => simp [hy] at hreg
      | some y =>
        rw [peerMsgs_writeMessage hy]
        unfold sent
        rw [hu]
        by_cases hk : u = t
        · subst hk
          simp [peerMsg, Message.createMessage]
        · simp [hk]
  | nameless u hu hn hl => exact .inr (.inl ⟨rfl, hl, u, hu, hn⟩)
  | replied r hu hr hd =>
    refine .inl ⟨rfl, hd, fun t ht => by simp [hu] at ht, fun t => ?_⟩
    rw [peerMsgs_writeMessage hx, sent_eq_nil.2 hu t, if_neg]
    exact fun hm => hr hm.2
  | unlistable hu hm hd => exact .inr (.inr ⟨rfl, rfl, hm, hd⟩)
  | ignored hu hl =>
    refine .inl ⟨rfl, fun hm => absurd hm hl, fun t ht => by simp [hu] at ht, fun t => ?_⟩
    rw [sent_eq_nil.2 hu t, List.append_nil]

theorem untilUnlistable_cons (h : m.type = .listPeers → s.Dumpable env) (ms : List Message) :
    s.untilUnlistable env (m :: ms) = m :: s.untilUnlistable env ms := by
  unfold untilUnlistable
  by_cases hd : s.Dumpable env
  · rw [if_pos hd, if_pos hd]
  · rw [if_neg hd, if_neg hd, List.takeWhile_cons_of_pos]
    exact decide_eq_true fun hm => hd (h hm)

theorem untilUnlistable_unlistable (hm : m.type = .listPeers) (hd : ¬ s.Dumpable env)
    (ms : List Message) : s.untilUnlistable env (m :: ms) = [] := by
  unfold untilUnlistable
  rw [if_neg hd, List.takeWhile_cons_of_neg]
  simp [hm]

theorem Frame.untilUnlistable (h : Frame s s') (ms : List Message) :
    s'.untilUnlistable env ms = s.untilUnlistable env ms := by
  unfold Server.untilUnlistable
  by_cases hd : s.Dumpable env
  · rw [if_pos hd, if_pos (h.dumpable.2 hd)]
  · rw [if_neg hd, if_neg fun hd' => hd (h.dumpable.1 hd')]

/-- The loop queues what its messages send, as far as it gets, unless it comes to a
message for whose sender or receiver there is no name. -/
theorem handleMessages_sent (env : Libs Obj) (h : Inv s) (hi : ∃ x, s.lock i = some x)
    (ms : List Message) :
    ((handleMessages env i s ms).2 ≠ some .emptyFront ↔
        ∀ m ∈ s.untilUnlistable env ms, ∀ t ∈ s.target m, s.HasNames i t) ∧
      ((handleMessages env i s ms).2 ≠ some .emptyFront → ∀ t,
        (handleMessages env i s ms).1.peerMsgs t =
          s.peerMsgs t ++ (s.untilUnlistable env ms).flatMap (s.sent i t)) := by
  induction ms generalizing s with
  | nil => simp [handleMessages, untilUnlistable]
  | cons m ms ih =>
    have hf : Frame s (s.handleMessage env i m).1 := handleMessage_frame hi m
    cases he : s.handleMessage env i m with
    | mk s' o =>
      rw [he] at hf
      rcases handleMessage_sent h hi he with ⟨rfl, hl, hn, hq⟩ | ⟨rfl, hl, t, ht, hn⟩ |
        ⟨rfl, rfl, hm, hd⟩
      · obtain ⟨hiff, hrest⟩ := ih (h.of_frame hf) (hf.exists_lock hi)
        rw [handleMessages_next he, untilUnlistable_cons hl]
        simp only [hf.untilUnlistable, hf.target, hf.hasNames] at hiff hrest
        refine ⟨?_, fun hne t => ?_⟩
        · rw [List.forall_mem_cons, hiff]
          exact ⟨fun hms => ⟨hn, hms⟩, fun hms => hms.2⟩
        · rw [hrest hne t, hq t, List.flatMap_cons, List.append_assoc]
          simp only [funext (hf.sent i t)]
      · rw [handleMessages_throw he, untilUnlistable_cons fun hm => absurd hm hl]
        refine ⟨iff_of_false (by simp) fun hall => ?_, by simp⟩
        exact hn (hall m List.mem_cons_self t ht)
      · rw [handleMessages_throw he, untilUnlistable_unlistable hm hd]
        simp

/-! ## Every step and every run -/

theorem handled_of_fails (hx : s.sessions[i]? = some x)
    (hf : env.mp.Fails (x.ctx.unp ++ bytes)) : s.handled env i bytes = [] := by
  unfold handled
  rw [hx, Option.map_some, if_pos hf]
  rfl

theorem handled_of_not_fails (hx : s.sessions[i]? = some x)
    (hf : ¬ env.mp.Fails (x.ctx.unp ++ bytes)) :
    s.handled env i bytes = s.untilUnlistable env (env.mp.messages (x.ctx.unp ++ bytes)) := by
  unfold handled
  rw [hx, Option.map_some, if_neg hf]
  rfl

theorem routed_read : s.Routed env (.read i bytes) s' ↔ s'.ended ≠ some .emptyFront ∧
    ∀ t, s'.peerMsgs t = s.peerMsgs t ++ (s.handled env i bytes).flatMap (s.due i t) := Iff.rfl

theorem routesOk_read : s.RoutesOk env (.read i bytes) ↔
    ∀ m ∈ s.handled env i bytes, ∀ t ∈ s.target m, s.Registered i ∧ s.HasNames i t := Iff.rfl

theorem onRead_routed (h : Inv s) (hx : s.sessions[i]? = some x) (hr : x.reading = true)
    (bytes : Bytes) :
    s.Routed env (.read i bytes) (s.onRead env i x bytes) ↔ s.RoutesOk env (.read i bytes) := by
  by_cases hf : env.mp.Fails (x.ctx.unp ++ bytes)
  · obtain ⟨c, e, he, hread⟩ := onRead_error (s := s) (i := i) hf
    rw [routed_read, routesOk_read, hread, handled_of_fails hx hf]
    refine iff_of_true ⟨?_, fun t => ?_⟩ (by simp)
    · rcases he with rfl | rfl <;> simp
    · rw [List.flatMap_nil, List.append_nil]
      exact peerMsgs_modify fun _ => rfl
  · obtain ⟨r, hscan⟩ := scan_of_not_fails hf
    have hctx := frame_ctx hx hr ⟨r⟩
    have hi := hctx.exists_lock ⟨x, lock_of_reading hx hr⟩
    obtain ⟨hiff, hrest⟩ := handleMessages_sent env (h.of_frame hctx) hi
      (env.mp.messages (x.ctx.unp ++ bytes))
    simp only [hctx.untilUnlistable, hctx.target, hctx.hasNames, funext (hctx.sent i _),
      ← handled_of_not_fails hx hf] at hiff hrest
    have hsame : ∀ t, (s.modify i fun x => { x with ctx := ⟨r⟩ }).peerMsgs t = s.peerMsgs t :=
      fun t => peerMsgs_modify fun _ => rfl
    have hdue := sent_eq_due (i := i) h (s.handled env i bytes)
    rw [routed_read, routesOk_read, onRead_ok hscan]
    constructor
    · rintro ⟨hne, hq⟩ m hm t ht
      refine ⟨?_, hiff.1 hne m hm t ht⟩
      refine hdue.1 (fun u => ?_) m hm t ht
      have hboth := (hrest hne u).symm.trans (hq u)
      rw [hsame] at hboth
      exact List.append_cancel_left hboth
    · intro hok
      have hne := hiff.2 fun m hm t ht => (hok m hm t ht).2
      refine ⟨hne, fun t => ?_⟩
      have hq := hrest hne t
      rw [hsame, hdue.2 (fun m hm u hu => (hok m hm u hu).1) t] at hq
      exact hq

theorem peerMsgs_release (s : Server) (i t : Nat) : (s.release i).peerMsgs t = s.peerMsgs t := by
  unfold release
  split
  · rfl
  · split <;> rfl

theorem ended_release (s : Server) (i : Nat) : (s.release i).ended = s.ended := by
  unfold release
  split
  · rfl
  · split <;> rfl

/-- The other steps queue nothing. -/
theorem step_routed {e : Event} (hs : s.step env e = some s') (hne : ∀ i b, e ≠ .read i b) :
    s.Routed env e s' := by
  have hnone : s.ended = none → s.ended ≠ some .emptyFront := fun h => by simp [h]
  have hmod : ∀ (f : Session → Session) i, (∀ x, (f x).queued = x.queued) → s.ended = none →
      ((s.modify i f).release i).ended ≠ some .emptyFront ∧
        ∀ t, ((s.modify i f).release i).peerMsgs t = s.peerMsgs t ++ [] := by
    intro f i hf he
    refine ⟨?_, fun t => ?_⟩
    · rw [ended_release]
      exact hnone he
    · rw [peerMsgs_release, peerMsgs_modify hf, List.append_nil]
  cases e with
  | accept w =>
    simp only [step, Option.ite_none_right_eq_some, Option.some.injEq] at hs
    obtain ⟨he, rfl⟩ := hs
    refine ⟨hnone he, fun t => ?_⟩
    simp only [dueOn, List.append_nil, peerMsgs]
    by_cases ht : t < s.sessions.length
    · rw [List.getElem?_append_left ht]
    · rw [List.getElem?_append_right (by omega), List.getElem?_eq_none (l := s.sessions) (by omega)]
      cases t - s.sessions.length <;> rfl
  | handshake i remote cn =>
    obtain ⟨x, hx, rfl⟩ := Option.map_eq_some_iff.1 hs
    obtain ⟨he, -, -⟩ := waiting_eq_some hx
    unfold onHandshake
    split
    · refine ⟨by simp, fun t => ?_⟩
      simp only [dueOn, List.append_nil]
      exact peerMsgs_modify fun _ => rfl
    · refine ⟨hnone he, fun t => ?_⟩
      simp only [dueOn, List.append_nil]
      exact peerMsgs_modify fun _ => rfl
  | read i bytes => exact absurd rfl (hne i bytes)
  | wrote i =>
    obtain ⟨x, hx, rfl⟩ := Option.map_eq_some_iff.1 hs
    exact hmod _ i (fun x => Session.doWrite_queued _) (waiting_eq_some hx).1
  | handshakeFailed i | readFailed i | writeFailed i =>
    obtain ⟨x, hx, rfl⟩ := Option.map_eq_some_iff.1 hs
    exact hmod _ i (fun _ => rfl) (waiting_eq_some hx).1

theorem step_routed_iff {e : Event} (h : Inv s) (hs : s.step env e = some s') :
    s.Routed env e s' ↔ s.RoutesOk env e := by
  cases e with
  | read i bytes =>
    obtain ⟨x, -, hx, hr, rfl⟩ := read_eq_some hs
    exact onRead_routed h hx hr bytes
  | accept | handshake | handshakeFailed | readFailed | wrote | writeFailed =>
    exact iff_of_true (step_routed hs (by simp)) trivial

theorem peerMsgs_run {es : List Event} (hr : ((lts env).guard (RoutesOk env)).Run start es s)
    (t : Nat) : s.peerMsgs t = LTS.outputs (step env) (dueOn env t) start es := by
  have hstep : ∀ s e s', Inv s → RoutesOk env s e → s.step env e = some s' →
      s'.peerMsgs t = s.peerMsgs t ++ dueOn env t s e :=
    fun s e s' h hok hs => ((step_routed_iff h hs).2 hok).2 t
  have hout : s.peerMsgs t = start.peerMsgs t ++ LTS.outputs (step env) (dueOn env t) start es :=
    LTS.run_outputs (inv_inductive env).of_guard hstep hr inv_start
  exact hout.trans (by simp [peerMsgs, start])

/-- From every reachable state a step queues what is due, and takes the front of no
empty list, exactly if it meets `RoutesOk`. In a run of such steps each session was
given all that was due to it, and nothing else, in the order in which it was
read. -/
theorem routing_of_named {Obj : Type} (env : Libs Obj) :
    (∀ s e s', (lts env).Reachable s → (lts env).step s e s' →
      (Routed env s e s' ↔ RoutesOk env s e)) ∧
    ∀ es s, ((lts env).guard (RoutesOk env)).Run start es s →
      s.ended ≠ some .emptyFront ∧
        ∀ t, s.peerMsgs t = LTS.outputs (step env) (dueOn env t) start es := by
  have hinv := inv_inductive env
  refine ⟨fun s e s' hreach hs => step_routed_iff (hinv.reachable hreach) hs,
    fun es s hrun => ⟨?_, peerMsgs_run hrun⟩⟩
  refine LTS.run_invariant (P := fun s => Inv s ∧ s.ended ≠ some .emptyFront) ?_ hrun
    ⟨inv_start, by simp [start]⟩ |>.2
  intro s e s' h hs
  exact ⟨hinv.step s e s' h.1 hs.1, ((step_routed_iff h.1 hs.1).2 hs.2).1⟩

/-- Two clients with names: what one sends the other gets. -/
theorem routing_of_named_sendTrace : ∃ s : Server,
    s.peerMsgs 0 = [{ Message.createMessage .peerMsg [104] with src := [66], dst := [65] }] ∧
    s.peerMsgs 0 = LTS.outputs (step smallLibs) (dueOn smallLibs 0) start
      (twoClients [[65]] [[66], [67]] ++ [.read 1 sendMsgBytes]) := by
  have hexec : (LTS.execGuard (step smallLibs) (RoutesOk smallLibs) start
      (twoClients [[65]] [[66], [67]] ++ [.read 1 sendMsgBytes])).map (fun s => s.peerMsgs 0) =
        some [{ Message.createMessage .peerMsg [104] with src := [66], dst := [65] }] := by
    decide +kernel
  obtain ⟨s, hs, hq⟩ := Option.map_eq_some_iff.1 hexec
  exact ⟨s, hq, ((routing_of_named smallLibs).2 _ s (LTS.run_of_execGuard hs)).2 0⟩

/-- Counterexample: a client whose certificate has no common name sends a message to
another one. And a client that has the address of another one, for which the
registry has no room, sends a message to a third. -/
theorem routing_unchecked :
    (∃ s s', (lts smallLibs).Reachable s ∧ (lts smallLibs).step s (.read 1 sendMsgBytes) s' ∧
      s.Registered 0 ∧ s.Registered 1 ∧ s'.ended = some .emptyFront) ∧
    ∃ s s', (lts smallLibs).Reachable s ∧ (lts smallLibs).step s (.read 2 sendMsgBytes) s' ∧
      ¬ s.Registered 2 ∧ s'.peerMsgs 0 =
        [{ Message.createMessage .peerMsg [104] with src := [67], dst := [65] }] := by
  constructor
  · have hrun : ∃ s, (lts smallLibs).Reachable s ∧ s.Registered 0 ∧ s.Registered 1 ∧
        (s.step smallLibs (.read 1 sendMsgBytes)).map Server.ended = some (some .emptyFront) :=
      LTS.exists_reachable_of_exec (twoClients [[65]] []) rfl (by decide +kernel)
    obtain ⟨s, hs, h0, h1, he⟩ := hrun
    obtain ⟨s', hs', he'⟩ := Option.map_eq_some_iff.1 he
    exact ⟨s, s', hs, hs', h0, h1, he'⟩
  · have hrun : ∃ s, (lts smallLibs).Reachable s ∧ ¬ s.Registered 2 ∧
        (s.step smallLibs (.read 2 sendMsgBytes)).map (fun s => s.peerMsgs 0) =
          some [{ Message.createMessage .peerMsg [104] with src := [67], dst := [65] }] :=
      LTS.exists_reachable_of_exec (twoClients [[65]] [[66]] ++
        [.accept false, .handshake 2 (some ([49, 46, 49, 46, 49, 46, 49], 2)) [[67]]]) rfl
        (by decide +kernel)
    obtain ⟨s, hs, h2, hq⟩ := hrun
    obtain ⟨s', hs', hq'⟩ := Option.map_eq_some_iff.1 hq
    exact ⟨s, s', hs, hs', h2, hq'⟩

end Server
end ShadowTalk.Whisper
