import ShadowTalk.Core.LTS
import ShadowTalk.Sml.Turn

/-!
# Which keys a peer computes a shared key with

A peer under any sequence of events, with any datagrams in them. Every call of
`DH2::Agree` is in its output, with the value of `id_` at that time.

* `agrees_configured`: if each hello that is processed carries a configured id,
  every agreement is with the key configured for `id_`.
* `agrees_unconfigured`: without that, an unknown id is accepted: the lookup
  returns an empty string, which decodes to an empty key.
-/
namespace ShadowTalk.Sml.Peer
open ShadowTalk.Core

variable {env : Env} {conf : Configuration} {p : Peer} {d : Datagram} {priv : Bytes}

/-- A peer on its own; an exception leaves the state it was thrown in. -/
def lts (env : Env) (conf : Configuration) : LTS Peer Event :=
  .ofFn (· = new env conf) fun p e => (p.handle env conf e).map Prod.fst

/-- `spub` is the decoded form of the key configured for `id`. -/
def Configured (env : Env) (conf : Configuration) (id spub : Bytes) : Prop :=
  ∃ key, conf.trustedPeerKeyMap.find? id = some key ∧ spub = env.hexStrToBytes key

/-- A hello that the current handler processes carries a configured id.
`public_key_exchange_handler` and `echo_handler` do not look at its id. -/
def HelloConfigured (conf : Configuration) (p : Peer) : Event → Prop
  | .recv d _ => d.type = .hello →
      p.datagramHandler = .hello ∨ p.datagramHandler = .established →
      (conf.trustedPeerKeyMap.find? d.payload).isSome = true
  | _ => True

instance (conf : Configuration) (p : Peer) (e : Event) : Decidable (HelloConfigured conf p e) := by
  cases e <;> simp only [HelloConfigured] <;> infer_instance

structure Trusted (env : Env) (conf : Configuration) (p : Peer) : Prop where
  known : p.currentState.receivedHello = true → Configured env conf p.id p.peerSpub
  peerSpub : p.currentState.receivedPublicKey = true → p.dh.peerSpub = some p.peerSpub
  log : ∀ x ∈ agrees p.out, Configured env conf x.1 x.2

theorem Trusted.same {q : Peer} (h : Trusted env conf p)
    (hr : q.currentState.receivedHello = p.currentState.receivedHello)
    (hk : q.currentState.receivedPublicKey = p.currentState.receivedPublicKey)
    (hi : q.id = p.id) (hs : q.peerSpub = p.peerSpub) (hd : q.dh.peerSpub = p.dh.peerSpub)
    (ho : agrees q.out = agrees p.out) : Trusted env conf q where
  known := by rw [hr, hi, hs]; exact h.known
  peerSpub := by rw [hk, hd, hs]; exact h.peerSpub
  log := by rw [ho]; exact h.log

theorem Trusted.of_same {q : Peer} (h : Trusted env conf p) (hs : SameHandshake p q) :
    Trusted env conf q :=
  h.same (by rw [hs.currentState]) (by rw [hs.currentState]) hs.id hs.peerSpub (by rw [hs.dh])
    hs.agrees

/-- Sending keeps everything but the timer and the raw datagrams. -/
theorem Trusted.put (h : Trusted env conf p) {e : PeerEff} (he : agrees [e] = []) :
    Trusted env conf (p.put e) :=
  h.same rfl rfl rfl rfl rfl (by simp [Peer.put, he])

theorem configured_getPeerPublicKeyById {id : Bytes}
    (h : (conf.trustedPeerKeyMap.find? id).isSome = true) :
    Configured env conf id (env.hexStrToBytes (conf.getPeerPublicKeyById id)) := by
  obtain ⟨key, hk⟩ := Option.isSome_iff_exists.1 h
  exact ⟨key, hk, by rw [Configuration.getPeerPublicKeyById, hk]⟩

theorem Trusted.receivedHelloHandler (h : Trusted env conf p)
    (hk : p.currentState.receivedPublicKey = false)
    (hc : (conf.trustedPeerKeyMap.find? d.payload).isSome = true) :
    Trusted env conf (p.receivedHelloHandler env conf d) where
  known _ := configured_getPeerPublicKeyById hc
  peerSpub hk' := by
    change p.currentState.receivedPublicKey = true at hk'
    rw [hk] at hk'; cases hk'
  log x hx := by
    refine h.log x ?_
    simpa [Peer.receivedHelloHandler, Peer.sendAck, Peer.sendRawDatagram, Peer.put] using hx

theorem Trusted.helloTake {q : Peer} (hi : Inv env conf p) (h : Trusted env conf p)
    (hp : p.datagramHandler = .hello) (ht : HelloTake env conf p d q)
    (hc : d.type = .hello → (conf.trustedPeerKeyMap.find? d.payload).isSome = true) :
    Trusted env conf q ∧ q.currentState.receivedPublicKey = false := by
  obtain ⟨ha, hr, hb⟩ := hi.helloBits hp
  have hk : p.currentState.receivedPublicKey = false := by rw [hb]
  cases ht with
  | hello ht => exact ⟨h.receivedHelloHandler hk (hc ht), hk⟩
  | ack ht => exact ⟨h.same rfl rfl rfl rfl rfl rfl, hk⟩

theorem Trusted.helloCompleteHandler (h : Trusted env conf p)
    (hk : p.currentState.receivedPublicKey = false) :
    Trusted env conf (p.helloCompleteHandler env priv) where
  known := h.known
  peerSpub hk' := by
    change p.currentState.receivedPublicKey = true at hk'
    rw [hk] at hk'
    cases hk'
  log x hx := by
    refine h.log x ?_
    simpa [Peer.helloCompleteHandler, Peer.sendPublicKey, Peer.sendRawDatagramWithRetransmit,
      Peer.sendRawDatagram, Peer.put] using hx

theorem Trusted.keyTake {q : Peer} (h : Trusted env conf p) (ht : KeyTake p d q) :
    Trusted env conf q := by
  cases ht with
  | key ht =>
    refine ⟨h.known, fun _ => rfl, fun x hx => h.log x ?_⟩
    simpa [Peer.receivedPublicKeyHandler, Peer.sendAck, Peer.sendRawDatagram, Peer.put] using hx
  | ack ht => exact h.same rfl rfl rfl rfl rfl rfl
  | hello ht => exact h.put rfl
  | ignore => exact h

/-- The agreement is with the static key that came with the hello; the record of the
call is the only new one. -/
theorem Trusted.agreeing (hi : Inv env conf p) (h : Trusted env conf p)
    (hp : p.datagramHandler = .publicKeyExchange)
    (hc : p.currentState.publicKeyExchanged = true) (shared key : Option Bytes) :
    Trusted env conf (p.agreeing shared key) := by
  obtain ⟨pa, pr, hb⟩ := hi.exchangeBits hp
  have hpr : p.currentState.receivedPublicKey = true := by
    rw [hb] at hc ⊢
    exact (by simpa [Bits.publicKeyExchanged] using hc : pr = true ∧ pa = true).1
  have hnew : Configured env conf p.id (p.dh.peerSpub.getD []) := by
    rw [h.peerSpub hpr]
    exact h.known (by rw [hb])
  refine ⟨h.known, h.peerSpub, fun x hx => ?_⟩
  have hx : x ∈ agrees p.out ++ [(p.id, p.dh.peerSpub.getD [])] := by
    simpa [Peer.agreeing, Peer.put] using hx
  rcases List.mem_append.1 hx with hx | hx
  · exact h.log x hx
  · rw [List.mem_singleton.1 hx]
    exact hnew

theorem Trusted.turn {r : Peer × Option Exc} (hi : Inv env conf p) (h : Trusted env conf p)
    (ht : Turn env conf p d priv r) (hc : HelloConfigured conf p (.recv d priv)) :
    Trusted env conf r.1 := by
  cases ht with
  | hello hp ht hn => exact (h.helloTake hi hp ht fun hd => hc hd (.inl hp)).1
  | helloDone hp ht hd =>
    obtain ⟨hq, hk⟩ := h.helloTake hi hp ht fun hd => hc hd (.inl hp)
    exact hq.helloCompleteHandler hk
  | key hp ht hn => exact h.keyTake ht
  | keyFailed hp ht hd shared key hx =>
    exact (h.keyTake ht).agreeing (ht.inv hi hp) (ht.handler.trans hp) hd shared key
  | keyDone hp ht hd v k =>
    refine ((h.keyTake ht).agreeing (ht.inv hi hp) (ht.handler.trans hp) hd (some v) (some v)).same
      rfl rfl rfl rfl rfl ?_
    simp [keyed, Peer.sendEcho, Peer.sendRawDatagramWithRetransmit, Peer.sendRawDatagram, Peer.put]
  | echoDone hp ht hd => exact h.same rfl rfl rfl rfl rfl (by simp [finish, Peer.put])
  | reset hp ht =>
    refine Trusted.receivedHelloHandler ⟨fun _ => ?_, fun hk => (by cases hk), fun x hx => ?_⟩ rfl
      (hc ht (.inr hp))
    · exact h.known (by rw [hi.establishedBits hp])
    · refine h.log x ?_
      simpa [Peer.reset, Peer.sendHello, Peer.sendRawDatagramWithRetransmit,
        Peer.sendRawDatagram, Peer.put] using hx
  | answer hp ht => exact h.put rfl
  | keyAgain hp ht => exact h.put rfl
  | abort hp ht => exact h.put rfl
  | feed hp ht payload => exact h.of_same (feedStream_same _ _)
  | undecryptable hp ht => exact h
  | ignore hp he => exact h

theorem Trusted.handle {e : Event} {r : Peer × Option Exc} (hi : Inv env conf p)
    (h : Trusted env conf p) (hr : p.handle env conf e = some r) (hc : HelloConfigured conf p e) :
    Trusted env conf r.1 := by
  by_cases he : e.isStream = true
  · exact h.of_same (handle_stream_same hr he)
  · cases e with
    | recv d priv =>
      simp only [Peer.handle, Option.some.injEq] at hr
      subst hr
      exact h.turn hi (turn_of_recv hi d priv) hc
    | expire =>
      simp only [Peer.handle, Option.map_eq_some_iff] at hr
      obtain ⟨t, -, rfl⟩ := hr
      exact h.same rfl rfl rfl rfl rfl rfl
    | retransmit =>
      simp only [Peer.handle, Option.map_eq_some_iff] at hr
      obtain ⟨t, -, rfl⟩ := hr
      refine h.same rfl rfl rfl rfl rfl ?_
      simp [Peer.sendRawDatagramWithRetransmit, Peer.sendRawDatagram, Peer.put]
    | _ => exact absurd rfl he

theorem trusted_inductive (env : Env) (conf : Configuration) :
    ((lts env conf).guard (HelloConfigured conf)).Inductive fun p =>
      Inv env conf p ∧ Trusted env conf p where
  init := forall_eq.2 ⟨inv_new env conf, fun h => (by cases h), fun h => (by cases h),
    List.forall_mem_nil _⟩
  step p e p' h hs := by
    obtain ⟨r, hr, rfl⟩ := Option.map_eq_some_iff.1 hs.1
    exact ⟨h.1.handle hr, h.2.handle h.1 hr hs.2⟩

/-- In every run whose processed hellos all carry configured ids, the id of the
peer is configured once a hello is received, and every agreement is with the
decoded form of the key configured for the id at that time. -/
theorem agrees_configured (h : ((lts env conf).guard (HelloConfigured conf)).Reachable p) :
    (p.currentState.receivedHello = true → Configured env conf p.id p.peerSpub) ∧
      ∀ x ∈ agrees p.out, Configured env conf x.1 x.2 :=
  have ht := ((trusted_inductive env conf).reachable h).2
  ⟨ht.known, ht.log⟩

/-- A handshake of peer `a` with somebody who calls himself `id`. -/
def helloTrace (id : Bytes) : List Event :=
  [.recv (.createHello id) [7], .recv (.createAck 0 0) [7],
    .recv (.createPublicKey (smallPub [9])) [], .recv (.createAck 0 0) []]

/-- The handshake with `b`, to its end. -/
def establishedTrace : List Event :=
  helloTrace [98] ++ [.recv (.createEchoBack (.createEcho echoContent)) []]

theorem agrees_configured_smallConf : ∃ p : Peer, agrees p.out = [([98], [4])] ∧
    ∀ x ∈ agrees p.out, Configured smallEnv smallConfA x.1 x.2 := by
  have hrun : ∃ p, ((lts smallEnv smallConfA).guard (HelloConfigured smallConfA)).Reachable p ∧
      agrees p.out = [([98], [4])] :=
    LTS.exists_reachable_of_execGuard (helloTrace [98]) rfl (by decide +kernel)
  obtain ⟨p, hr, ho⟩ := hrun
  exact ⟨p, ho, (agrees_configured hr).2⟩

/-- Counterexample: a hello of the unknown `x` is accepted, and the shared key
is computed with the empty static key. -/
theorem agrees_unconfigured : ∃ p : Peer, (lts smallEnv smallConfA).Reachable p ∧
    p.currentState.receivedHello = true ∧ p.datagramHandler = .echo ∧
    agrees p.out = [([120], [])] ∧
    ¬ ∀ x ∈ agrees p.out, Configured smallEnv smallConfA x.1 x.2 := by
  have hrun : ∃ p, (lts smallEnv smallConfA).Reachable p ∧ p.currentState.receivedHello = true ∧
      p.datagramHandler = .echo ∧ agrees p.out = [([120], [])] :=
    LTS.exists_reachable_of_exec (helloTrace [120]) rfl (by decide +kernel)
  obtain ⟨p, hr, h1, h2, h3⟩ := hrun
  refine ⟨p, hr, h1, h2, h3, fun h => ?_⟩
  obtain ⟨key, hk, -⟩ := h ([120], []) (by rw [h3]; exact List.mem_singleton.2 rfl)
  have hn : smallConfA.trustedPeerKeyMap.find? [120] = none := by decide +kernel
  rw [hn] at hk
  cases hk

end ShadowTalk.Sml.Peer
