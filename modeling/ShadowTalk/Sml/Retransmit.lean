import ShadowTalk.Sml.Trust
import ShadowTalk.Sml.Turn

/-!
# Which datagram is retransmitted

One timer serves the three phases of the handshake, and a handler that is
already queued when its wait is cancelled sends, and arms, what it captured.

* `retransmits_current`: as long as each queued handler that runs captured the
  datagram of the phase the peer is in, what is armed is the datagram of the
  current phase, and it is held by the timer until it is acknowledged. The
  condition is exact.
* `retransmits_stale`: without it, an acknowledged hello is armed in the key
  exchange, and the public key is given up.
-/
namespace ShadowTalk.Sml.Peer
open ShadowTalk.Core

variable {env : Env} {conf : Configuration} {p q : Peer} {d : Datagram}

/-- The handshake datagram of the current phase. -/
def phaseDatagram (env : Env) (conf : Configuration) (p : Peer) : Option Datagram :=
  match p.datagramHandler with
  | .hello => some (.createHello conf.id)
  | .publicKeyExchange => p.dh.epriv.map fun e => .createPublicKey (env.ephemeralPub e)
  | .echo => some (.createEcho echoContent)
  | .established => none

def Current (env : Env) (conf : Configuration) (p : Peer) (d : Datagram) : Prop :=
  p.phaseDatagram env conf = some d

/-- The datagram of the current phase is not acknowledged yet. -/
def Unacknowledged (p : Peer) : Prop :=
  match p.datagramHandler with
  | .hello => p.currentState.receivedHelloAck = false
  | .publicKeyExchange => p.currentState.receivedPublicKeyAck = false
  | .echo => p.currentState.waitForEcho = true
  | .established => False

structure RetransmitOk (env : Env) (conf : Configuration) (p : Peer) : Prop where
  /-- what is armed is the datagram of the current phase -/
  armed : ∀ d, p.timer.armed = some d → Current env conf p d
  /-- the datagram of the current phase is held until it is acknowledged -/
  held : Unacknowledged p → ∃ d ∈ p.timer.pending, Current env conf p d

/-- A queued handler that runs captured the datagram of the current phase. -/
def FiresCurrent (env : Env) (conf : Configuration) (p : Peer) : Event → Prop
  | .retransmit => ∀ d ∈ p.timer.queued.head?, Current env conf p d
  | _ => True

instance : Decidable (Current env conf p d) := inferInstanceAs (Decidable (_ = _))

instance (e : Event) : Decidable (FiresCurrent env conf p e) :=
  match e with
  | .retransmit => inferInstanceAs (Decidable (∀ _ ∈ _, _))
  | .recv _ _ | .expire | .addStream _ | .delStream _ | .send _ _ | .streamExpire _
  | .streamRetransmit _ => .isTrue trivial

theorem Current.type_eq (h : Current env conf p d) :
    d.type = .hello ∧ p.datagramHandler = .hello ∨
      d.type = .publicKey ∧ p.datagramHandler = .publicKeyExchange ∨
        d.type = .echo ∧ p.datagramHandler = .echo := by
  unfold Current phaseDatagram at h
  split at h
  · rename_i hp
    cases h
    exact .inl ⟨rfl, hp⟩
  · rename_i hp
    obtain ⟨e, -, rfl⟩ := Option.map_eq_some_iff.1 h
    exact .inr (.inl ⟨rfl, hp⟩)
  · rename_i hp
    cases h
    exact .inr (.inr ⟨rfl, hp⟩)
  · cases h

theorem Current.of_eq (h : Current env conf p d) (hh : q.datagramHandler = p.datagramHandler)
    (he : q.dh.epriv = p.dh.epriv) : Current env conf q d := by
  unfold Current phaseDatagram at h ⊢
  rw [hh, he]
  exact h

theorem Unacknowledged.of_eq (h : Unacknowledged q) (hh : q.datagramHandler = p.datagramHandler)
    (hb : q.currentState = p.currentState) : Unacknowledged p := by
  unfold Unacknowledged at h ⊢
  rw [← hh, ← hb]
  exact h

/-! ## The three ways to stay in order -/

theorem RetransmitOk.of_eq (h : RetransmitOk env conf p)
    (hh : q.datagramHandler = p.datagramHandler) (hu : Unacknowledged q → Unacknowledged p)
    (he : q.dh.epriv = p.dh.epriv) (ht : q.timer = p.timer) : RetransmitOk env conf q where
  armed d hd := (h.armed d (ht ▸ hd)).of_eq hh he
  held hq := by
    obtain ⟨d, hd, hc⟩ := h.held (hu hq)
    exact ⟨d, ht ▸ hd, hc.of_eq hh he⟩

/-- Nothing is armed, and nothing has to be. -/
theorem RetransmitOk.of_acknowledged (ha : p.timer.armed = none) (hu : ¬ Unacknowledged p) :
    RetransmitOk env conf p where
  armed d hd := by
    rw [ha] at hd
    cases hd
  held h := absurd h hu

/-- The datagram of the current phase has just been armed. -/
theorem RetransmitOk.of_armed (ha : p.timer.armed = some d) (hc : Current env conf p d) :
    RetransmitOk env conf p where
  armed x hx := by
    rw [ha, Option.some.injEq] at hx
    rw [← hx]
    exact hc
  held _ := ⟨d, Timer.mem_pending.2 (.inl ha), hc⟩

/-! ## Received datagrams -/

theorem RetransmitOk.helloTake (h : RetransmitOk env conf p) (hp : p.datagramHandler = .hello)
    (ht : HelloTake env conf p d q) : RetransmitOk env conf q := by
  cases ht with
  | hello ht =>
    refine h.of_eq rfl (fun hu => ?_) rfl rfl
    unfold Unacknowledged at hu ⊢
    rw [show (p.receivedHelloHandler env conf d).datagramHandler = .hello from hp] at hu
    rw [hp]
    exact hu
  | ack ht =>
    apply RetransmitOk.of_acknowledged rfl
    intro hu
    unfold Unacknowledged at hu
    rw [show p.receivedHelloAckHandler.datagramHandler = .hello from hp] at hu
    cases hu

theorem RetransmitOk.keyTake (h : RetransmitOk env conf p)
    (hp : p.datagramHandler = .publicKeyExchange) (ht : KeyTake p d q) :
    RetransmitOk env conf q := by
  cases ht with
  | key ht =>
    refine h.of_eq rfl (fun hu => ?_) rfl rfl
    unfold Unacknowledged at hu ⊢
    rw [show (p.receivedPublicKeyHandler d).datagramHandler = .publicKeyExchange from hp] at hu
    rw [hp]
    exact hu
  | ack ht =>
    apply RetransmitOk.of_acknowledged rfl
    intro hu
    unfold Unacknowledged at hu
    rw [show p.receivedPublicKeyAckHandler.datagramHandler = .publicKeyExchange from hp] at hu
    cases hu
  | hello ht => exact h.of_eq rfl (fun hu => hu) rfl rfl
  | ignore => exact h

/-- A phase ends by arming the datagram of the next one, or with nothing armed. -/
theorem RetransmitOk.turn {r : Peer × Option Exc} {priv : Bytes} (h : RetransmitOk env conf p)
    (ht : Turn env conf p d priv r) : RetransmitOk env conf r.1 := by
  cases ht with
  | hello hp ht hn => exact h.helloTake hp ht
  | helloDone hp ht hc =>
    exact .of_armed (d := .createPublicKey (env.ephemeralPub priv)) rfl rfl
  | key hp ht hn => exact h.keyTake hp ht
  | keyFailed hp ht hc shared key hx => exact (h.keyTake hp ht).of_eq rfl (fun hu => hu) rfl rfl
  | keyDone hp ht hc v k => exact .of_armed (d := .createEcho echoContent) rfl rfl
  | echoDone hp ht hc => exact .of_acknowledged rfl fun hu => hu
  | reset hp ht => exact .of_armed (d := .createHello conf.id) rfl rfl
  | answer hp ht => exact h.of_eq rfl (fun hu => hu) rfl rfl
  | keyAgain hp ht => exact h.of_eq rfl (fun hu => hu) rfl rfl
  | abort hp ht => exact h.of_eq rfl (fun hu => hu) rfl rfl
  | feed hp ht payload =>
    have hs := feedStream_same p { d with payload := payload }
    exact h.of_eq hs.datagramHandler (fun hu => hu.of_eq hs.datagramHandler hs.currentState)
      (by rw [hs.dh]) hs.timer
  | undecryptable hp ht => exact h
  | ignore hp he => exact h

/-! ## The timer -/

theorem RetransmitOk.expire {t : Timer Datagram} (h : RetransmitOk env conf p)
    (ht : p.timer.expire = some t) : RetransmitOk env conf { p with timer := t } := by
  obtain ⟨x, ha, rfl⟩ := Timer.expire_eq_some ht
  refine ⟨fun d hd => (by cases hd), fun hu => ?_⟩
  obtain ⟨d, hd, hc⟩ := h.held hu
  exact ⟨d, (Timer.mem_pending_expire ha).2 hd, hc⟩

theorem RetransmitOk.handle {e : Event} {r : Peer × Option Exc} (hi : Inv env conf p)
    (h : RetransmitOk env conf p) (hr : p.handle env conf e = some r)
    (hc : FiresCurrent env conf p e) : RetransmitOk env conf r.1 := by
  by_cases he : e.isStream = true
  · have hs := handle_stream_same hr he
    exact h.of_eq hs.datagramHandler (fun hu => hu.of_eq hs.datagramHandler hs.currentState)
      (by rw [hs.dh]) hs.timer
  · cases e with
    | recv d priv =>
      simp only [Peer.handle, Option.some.injEq] at hr
      rw [← hr]
      exact h.turn (turn_of_recv hi d priv)
    | expire =>
      simp only [Peer.handle, Option.map_eq_some_iff] at hr
      obtain ⟨t, ht, rfl⟩ := hr
      exact h.expire ht
    | retransmit =>
      simp only [Peer.handle, Option.map_eq_some_iff] at hr
      obtain ⟨⟨d, t⟩, ht, rfl⟩ := hr
      obtain ⟨hq, -⟩ := Timer.fire_eq_some ht
      have hd : Current env conf p d := hc d (by rw [hq]; rfl)
      exact .of_armed (d := d) rfl (hd.of_eq rfl rfl)
    | _ => exact absurd rfl he

theorem retransmitOk_inductive (env : Env) (conf : Configuration) :
    ((lts env conf).guard (FiresCurrent env conf)).Inductive fun p =>
      Inv env conf p ∧ RetransmitOk env conf p where
  init := forall_eq.2 ⟨inv_new env conf, .of_armed (d := .createHello conf.id) rfl rfl⟩
  step p e p' h hs := by
    obtain ⟨r, hr, rfl⟩ := Option.map_eq_some_iff.1 hs.1
    exact ⟨h.1.handle hr, h.2.handle h.1 hr hs.2⟩

/-- After a queued handler has run, what is armed is what it captured. -/
theorem firesCurrent_of_ok {e : Event} {r : Peer × Option Exc}
    (hr : p.handle env conf e = some r) (h : RetransmitOk env conf r.1) :
    FiresCurrent env conf p e := by
  cases e with
  | retransmit =>
    simp only [Peer.handle, Option.map_eq_some_iff] at hr
    obtain ⟨⟨x, t⟩, ht, rfl⟩ := hr
    obtain ⟨hq, -⟩ := Timer.fire_eq_some ht
    intro d hd
    rw [hq] at hd
    cases hd
    exact (h.armed x rfl).of_eq rfl rfl
  | _ => trivial

/-- The armed datagram is that of the current phase, and it is held by the timer
until it is acknowledged, in the runs whose queued handlers captured the
datagram of the phase they run in, and in no others. -/
theorem retransmits_current (env : Env) (conf : Configuration) :
    (lts env conf).Exact (FiresCurrent env conf) (RetransmitOk env conf) := by
  apply (retransmitOk_inductive env conf).exact
  · intro p h
    exact h.2
  · intro p e p' h hs hp
    obtain ⟨r, hr, rfl⟩ := Option.map_eq_some_iff.1 hs
    exact firesCurrent_of_ok hr hp

/-- The hello is retransmitted once, and the handshake goes on to the echo. -/
theorem retransmits_current_helloTrace : ∃ p : Peer, p.datagramHandler = .echo ∧
    p.timer.armed = some (.createEcho echoContent) ∧ RetransmitOk smallEnv smallConfA p := by
  have hrun : ∃ p, ((lts smallEnv smallConfA).guard (FiresCurrent smallEnv smallConfA)).Reachable p ∧
      p.datagramHandler = .echo ∧ p.timer.armed = some (.createEcho echoContent) :=
    LTS.exists_reachable_of_execGuard ([.expire, .retransmit] ++ helloTrace [98]) rfl
      (by decide +kernel)
  obtain ⟨p, hr, hp, ha⟩ := hrun
  exact ⟨p, hp, ha, (retransmits_current smallEnv smallConfA).sound p hr⟩

/-- Counterexample: the wait for the hello expires; before its handler runs, the
hello and the acknowledgement of the other side end the phase. The handler then
cancels the public key and arms the hello again. -/
theorem retransmits_stale : ∃ p : Peer, (lts smallEnv smallConfA).Reachable p ∧
    p.datagramHandler = .publicKeyExchange ∧ p.timer = ⟨some (.createHello [97]), []⟩ ∧
      p.currentState.receivedPublicKeyAck = false ∧ ¬ RetransmitOk smallEnv smallConfA p := by
  have hrun : ∃ p, (lts smallEnv smallConfA).Reachable p ∧
      p.datagramHandler = .publicKeyExchange ∧ p.timer = ⟨some (.createHello [97]), []⟩ ∧
        p.currentState.receivedPublicKeyAck = false :=
    LTS.exists_reachable_of_exec [.expire, .recv (.createHello [98]) [7],
      .recv (.createAck 0 0) [7], .retransmit] rfl (by decide +kernel)
  obtain ⟨p, hr, hp, ht, ha⟩ := hrun
  refine ⟨p, hr, hp, ht, ha, fun h => ?_⟩
  have hc := (h.armed (.createHello [97]) (by rw [ht])).type_eq
  rw [hp] at hc
  simp at hc

end ShadowTalk.Sml.Peer
