import ShadowTalk.Sml.Peer

/-!
# What the current handler says about the state of a peer

`Inv`: `datagram_handler_` determines the bits of `current_state_` up to the two
acknowledgement / received bits of its phase, and the fields a handler is about
to use are set. It holds for every sequence of datagrams, timer events and
stream calls, honest or not, also when the key agreement throws.

* `inv_new`, `Inv.recv`, `Inv.handle`: the invariant of a run.
-/
namespace ShadowTalk.Sml.Peer
open ShadowTalk.Core

/-- The bits that go with a handler. -/
def BitsOk : Handler → Bits → Prop
  | .hello, b => ∃ ha hr, b = ⟨true, ha, hr, false, false, false, false, false⟩
  | .publicKeyExchange, b => ∃ pa pr, b = ⟨true, true, true, true, pa, pr, false, false⟩
  | .echo, b => b = ⟨true, true, true, true, true, true, true, true⟩
  | .established, b => b = ⟨true, true, true, true, true, true, true, false⟩

/-- The key of `p` is what its key pairs agree on. -/
def Keyed (env : Env) (p : Peer) : Prop :=
  ∃ sa ea pb qb v k, p.dh.spriv = some sa ∧ p.dh.epriv = some ea ∧ p.dh.peerSpub = some pb ∧
    p.dh.peerEpub = some qb ∧ env.agree sa ea pb qb = some v ∧ p.key = some v ∧
    setKey v = .ok k ∧ p.encryptLayer = some k

structure Inv (env : Env) (conf : Configuration) (p : Peer) : Prop where
  bits : BitsOk p.datagramHandler p.currentState
  spriv : p.dh.spriv = some (env.hexStrToBytes conf.privateKey)
  epriv : p.datagramHandler ≠ .hello → ∃ e, p.dh.epriv = some e
  epub : p.dh.epub = p.dh.epriv.map env.ephemeralPub
  peerKeys : p.currentState.receivedPublicKey = true →
    ∃ pb qb, p.dh.peerSpub = some pb ∧ p.dh.peerEpub = some qb
  echo : p.datagramHandler = .echo → p.sentEchoDatagram = some (.createEcho echoContent)
  keyed : p.currentState.sharedKeyAgreement = true → Keyed env p

variable {env : Env} {conf : Configuration} {p : Peer} {d : Datagram} {priv : Bytes}

/-- The invariant reads neither the timer nor the output nor the streams. -/
theorem Inv.same {q : Peer} (h : Inv env conf p) (hs : q.currentState = p.currentState)
    (hh : q.datagramHandler = p.datagramHandler) (hd : q.dh = p.dh)
    (he : q.sentEchoDatagram = p.sentEchoDatagram) (hk : q.key = p.key)
    (hl : q.encryptLayer = p.encryptLayer) : Inv env conf q where
  bits := by rw [hh, hs]; exact h.bits
  spriv := by rw [hd]; exact h.spriv
  epriv := by rw [hh, hd]; exact h.epriv
  epub := by rw [hd]; exact h.epub
  peerKeys := by rw [hs, hd]; exact h.peerKeys
  echo := by rw [hh, he]; exact h.echo
  keyed := by unfold Keyed; rw [hs, hd, hk, hl]; exact h.keyed

theorem Inv.of_same {q : Peer} (h : Inv env conf p) (hs : SameHandshake p q) : Inv env conf q :=
  h.same hs.currentState hs.datagramHandler hs.dh hs.sentEchoDatagram hs.key hs.encryptLayer

/-- The invariant reads nothing of the configuration but the private key. -/
theorem Inv.of_conf {conf' : Configuration} (h : Inv env conf p)
    (hk : conf'.privateKey = conf.privateKey) : Inv env conf' p :=
  ⟨h.bits, by rw [hk]; exact h.spriv, h.epriv, h.epub, h.peerKeys, h.echo, h.keyed⟩

theorem Inv.put (h : Inv env conf p) (e : PeerEff) : Inv env conf (p.put e) :=
  h.same rfl rfl rfl rfl rfl rfl

theorem Inv.flush (h : Inv env conf p) : Inv env conf p.flush := h.same rfl rfl rfl rfl rfl rfl

theorem Inv.sendAck (h : Inv env conf p) : Inv env conf p.sendAck := h.put _

theorem Inv.helloBits (h : Inv env conf p) (hp : p.datagramHandler = .hello) :
    ∃ ha hr, p.currentState = ⟨true, ha, hr, false, false, false, false, false⟩ := by
  have := h.bits
  rwa [hp] at this

theorem Inv.exchangeBits (h : Inv env conf p) (hp : p.datagramHandler = .publicKeyExchange) :
    ∃ pa pr, p.currentState = ⟨true, true, true, true, pa, pr, false, false⟩ := by
  have := h.bits
  rwa [hp] at this

theorem Inv.echoBits (h : Inv env conf p) (hp : p.datagramHandler = .echo) :
    p.currentState = ⟨true, true, true, true, true, true, true, true⟩ := by
  have := h.bits
  rwa [hp] at this

theorem Inv.establishedBits (h : Inv env conf p) (hp : p.datagramHandler = .established) :
    p.currentState = ⟨true, true, true, true, true, true, true, false⟩ := by
  have := h.bits
  rwa [hp] at this

theorem Inv.established (h : Inv env conf p) (hp : p.datagramHandler = .established) :
    p.currentState.established = true := by
  rw [h.establishedBits hp]
  rfl

/-! ## Hello -/

theorem inv_new (env : Env) (conf : Configuration) : Inv env conf (new env conf) where
  bits := ⟨false, false, rfl⟩
  spriv := rfl
  epriv h := absurd rfl h
  epub := rfl
  peerKeys h := by cases h
  echo h := by cases h
  keyed h := by cases h

theorem Inv.receivedHelloHandler (h : Inv env conf p) (hp : p.datagramHandler = .hello) :
    Inv env conf (p.receivedHelloHandler env conf d) := by
  obtain ⟨ha, hr, hb⟩ := h.helloBits hp
  refine ⟨?_, h.spriv, fun hne => absurd hp hne, h.epub, fun hk => ?_, fun he => ?_, fun hk => ?_⟩
  · show BitsOk p.datagramHandler { p.currentState with receivedHello := true }
    rw [hp, hb]
    exact ⟨ha, true, rfl⟩
  · change p.currentState.receivedPublicKey = true at hk
    rw [hb] at hk; cases hk
  · exact absurd (hp.symm.trans he) (by decide)
  · change p.currentState.sharedKeyAgreement = true at hk
    rw [hb] at hk; cases hk

theorem Inv.receivedHelloAckHandler (h : Inv env conf p) (hp : p.datagramHandler = .hello) :
    Inv env conf p.receivedHelloAckHandler := by
  obtain ⟨ha, hr, hb⟩ := h.helloBits hp
  refine ⟨?_, h.spriv, fun hne => absurd hp hne, h.epub, fun hk => ?_, fun he => ?_, fun hk => ?_⟩
  · show BitsOk p.datagramHandler { p.currentState with receivedHelloAck := true }
    rw [hp, hb]
    exact ⟨true, hr, rfl⟩
  · change p.currentState.receivedPublicKey = true at hk
    rw [hb] at hk; cases hk
  · exact absurd (hp.symm.trans he) (by decide)
  · change p.currentState.sharedKeyAgreement = true at hk
    rw [hb] at hk; cases hk

theorem Inv.helloCompleteHandler (h : Inv env conf p) (hp : p.datagramHandler = .hello)
    (hc : p.currentState.helloComplete = true) :
    Inv env conf (p.helloCompleteHandler env priv) := by
  obtain ⟨ha, hr, hb⟩ := h.helloBits hp
  rw [hb] at hc
  obtain ⟨rfl, rfl⟩ : ha = true ∧ hr = true := by simpa [Bits.helloComplete] using hc
  refine ⟨?_, h.spriv, fun _ => ⟨priv, rfl⟩, rfl, fun hk => ?_, fun he => (by cases he), fun hk => ?_⟩
  · show BitsOk .publicKeyExchange { p.currentState with sentPublicKey := true }
    rw [hb]
    exact ⟨false, false, rfl⟩
  · change p.currentState.receivedPublicKey = true at hk
    rw [hb] at hk; cases hk
  · change p.currentState.sharedKeyAgreement = true at hk
    rw [hb] at hk; cases hk

theorem Inv.helloHandler (h : Inv env conf p) (hp : p.datagramHandler = .hello) :
    Inv env conf (p.helloHandler env conf d priv) := by
  have complete : ∀ q : Peer, Inv env conf q → q.datagramHandler = .hello →
      Inv env conf (if q.currentState.helloComplete then q.helloCompleteHandler env priv else q) :=
    fun q hq hqp => by
      split
      · rename_i hc
        exact hq.helloCompleteHandler hqp hc
      · exact hq
  unfold Peer.helloHandler
  split
  · exact complete _ (h.receivedHelloHandler hp) hp
  · exact complete _ (h.receivedHelloAckHandler hp) hp
  · exact h

/-! ## Public keys -/

theorem Inv.receivedPublicKeyHandler (h : Inv env conf p)
    (hp : p.datagramHandler = .publicKeyExchange) :
    Inv env conf (p.receivedPublicKeyHandler d) := by
  obtain ⟨pa, pr, hb⟩ := h.exchangeBits hp
  refine ⟨?_, h.spriv, h.epriv, h.epub, fun _ => ⟨p.peerSpub, d.payload, rfl, rfl⟩, fun he => ?_,
    fun hk => ?_⟩
  · show BitsOk p.datagramHandler { p.currentState with receivedPublicKey := true }
    rw [hp, hb]
    exact ⟨pa, true, rfl⟩
  · exact absurd (hp.symm.trans he) (by decide)
  · change p.currentState.sharedKeyAgreement = true at hk
    rw [hb] at hk; cases hk

theorem Inv.receivedPublicKeyAckHandler (h : Inv env conf p)
    (hp : p.datagramHandler = .publicKeyExchange) :
    Inv env conf p.receivedPublicKeyAckHandler := by
  obtain ⟨pa, pr, hb⟩ := h.exchangeBits hp
  refine ⟨?_, h.spriv, h.epriv, h.epub, h.peerKeys, fun he => ?_, fun hk => ?_⟩
  · show BitsOk p.datagramHandler { p.currentState with receivedPublicKeyAck := true }
    rw [hp, hb]
    exact ⟨true, pr, rfl⟩
  · exact absurd (hp.symm.trans he) (by decide)
  · change p.currentState.sharedKeyAgreement = true at hk
    rw [hb] at hk; cases hk

/-- With all four keys set, `generate_shared_key` yields a key exactly when the
agreement succeeds with at least 16 bytes. -/
theorem generateSharedKey_cases {sa ea pb qb : Bytes} (h1 : p.dh.spriv = some sa)
    (h2 : p.dh.epriv = some ea) (h3 : p.dh.peerSpub = some pb) (h4 : p.dh.peerEpub = some qb) :
    (env.agree sa ea pb qb = none ∧
        p.generateSharedKey env = (p.put (.agree p.id pb), some .runtimeError)) ∨
      (∃ v, env.agree sa ea pb qb = some v ∧ v.length < 16 ∧
        p.generateSharedKey env = ({ p.put (.agree p.id pb) with
          dh := { p.dh with shared := some v }, key := some v }, some .invalidDataError)) ∨
      ∃ v k, env.agree sa ea pb qb = some v ∧ 16 ≤ v.length ∧ setKey v = .ok k ∧
        p.generateSharedKey env = ({ p.put (.agree p.id pb) with
          dh := { p.dh with shared := some v }, key := some v, encryptLayer := some k }, none) := by
  simp only [Peer.generateSharedKey, Peer.put, DhKeyAgreement.generateSharedKey, h1, h2, h3, h4,
    Option.getD_some]
  cases ha : env.agree sa ea pb qb with
  | none => exact .inl ⟨rfl, rfl⟩
  | some v =>
    rcases setKey_eq v with ⟨hk, hlt⟩ | ⟨k, hk, hle⟩
    · exact .inr (.inl ⟨v, rfl, hlt, by simp only [hk, Option.getD_some]⟩)
    · exact .inr (.inr ⟨v, k, rfl, hle, hk, by simp only [hk, Option.getD_some]⟩)

theorem Inv.publicKeyExchangeCompleteHandler (h : Inv env conf p)
    (hp : p.datagramHandler = .publicKeyExchange)
    (hc : p.currentState.publicKeyExchanged = true) :
    Inv env conf (p.publicKeyExchangeCompleteHandler env).1 := by
  obtain ⟨pa, pr, hb⟩ := h.exchangeBits hp
  rw [hb] at hc
  obtain ⟨rfl, rfl⟩ : pr = true ∧ pa = true := by simpa [Bits.publicKeyExchanged] using hc
  obtain ⟨ea, hea⟩ := h.epriv (by rw [hp]; decide)
  obtain ⟨pb, qb, hpb, hqb⟩ := h.peerKeys (by rw [hb])
  -- a failed agreement leaves the handler and the bits as they are
  have hfail : ∀ q : Peer, q.currentState = p.currentState → q.datagramHandler = p.datagramHandler →
      q.dh.spriv = p.dh.spriv → q.dh.epriv = p.dh.epriv → q.dh.peerSpub = p.dh.peerSpub →
      q.dh.peerEpub = p.dh.peerEpub → q.dh.epub = p.dh.epub → Inv env conf q :=
      fun q e1 e2 e3 e4 e5 e6 e7 => by
    refine ⟨by rw [e1, e2]; exact h.bits, e3.trans h.spriv, fun _ => ⟨ea, e4.trans hea⟩,
      by rw [e7, e4]; exact h.epub,
      fun _ => ⟨pb, qb, e5.trans hpb, e6.trans hqb⟩, fun he => ?_, fun hk => ?_⟩
    · rw [e2, hp] at he; cases he
    · rw [e1, hb] at hk; cases hk
  unfold Peer.publicKeyExchangeCompleteHandler
  rcases generateSharedKey_cases h.spriv hea hpb hqb with ⟨-, hg⟩ | ⟨v, -, -, hg⟩ |
    ⟨v, k, hv, -, hk, hg⟩
  · rw [hg]
    exact hfail _ rfl rfl rfl rfl rfl rfl rfl
  · rw [hg]
    exact hfail _ rfl rfl rfl rfl rfl rfl rfl
  · rw [hg]
    refine ⟨?_, h.spriv, fun _ => ⟨ea, hea⟩, h.epub, fun _ => ⟨pb, qb, hpb, hqb⟩, fun _ => rfl,
      fun _ => ⟨_, ea, pb, qb, v, k, h.spriv, hea, hpb, hqb, hv, rfl, hk, rfl⟩⟩
    show BitsOk .echo { p.currentState with sharedKeyAgreement := true, waitForEcho := true }
    rw [hb]
    rfl

theorem Inv.publicKeyExchangeHandler (h : Inv env conf p)
    (hp : p.datagramHandler = .publicKeyExchange) :
    Inv env conf (p.publicKeyExchangeHandler env d).1 := by
  have complete : ∀ q : Peer, Inv env conf q → q.datagramHandler = .publicKeyExchange →
      Inv env conf (if q.currentState.publicKeyExchanged then
        q.publicKeyExchangeCompleteHandler env else (q, none)).1 := fun q hq hqp => by
    split
    · rename_i hc
      exact hq.publicKeyExchangeCompleteHandler hqp hc
    · exact hq
  unfold Peer.publicKeyExchangeHandler
  split
  · exact complete _ (h.receivedPublicKeyHandler hp) hp
  · exact complete _ (h.receivedPublicKeyAckHandler hp) hp
  · exact complete _ h.sendAck hp
  · exact complete _ h hp

/-! ## Echo -/

theorem receivedEchoBackHandler_echo (h : Inv env conf p) (hp : p.datagramHandler = .echo) :
    p.receivedEchoBackHandler d =
      if d.payload ≠ echoContent then (p, none)
      else ({ p with timer := p.timer.cancel,
                     currentState := { p.currentState with waitForEcho := false } }, none) := by
  unfold Peer.receivedEchoBackHandler
  rw [h.echo hp, h.echoBits hp]
  rfl

theorem receivedEchoBackHandler_established (h : Inv env conf p)
    (hp : p.datagramHandler = .established) : p.receivedEchoBackHandler d = (p, none) := by
  unfold Peer.receivedEchoBackHandler
  rw [h.establishedBits hp]
  rfl

/-- What `echo_handler` does: answer, ignore, or finish the handshake. -/
theorem echoHandler_eq (h : Inv env conf p) (hp : p.datagramHandler = .echo) :
    p.echoHandler d =
      (match d.type with
        | .echo => p.receivedEchoHandler d
        | .echoBack =>
          if d.payload ≠ echoContent then p
          else Peer.put { p with
            timer := p.timer.cancel
            currentState := { p.currentState with waitForEcho := false }
            datagramHandler := .established } (.newPeer p.id)
        | .publicKey => p.sendAck
        | _ => p, none) := by
  have hw : p.currentState.waitForEcho = true := by rw [h.echoBits hp]
  unfold Peer.echoHandler
  cases hd : d.type with
  | echoBack =>
    simp only [receivedEchoBackHandler_echo h hp]
    by_cases hc : d.payload ≠ echoContent
    · simp only [hc, if_true, hw, ne_eq, not_false_eq_true]
    · simp only [hc, if_false, Bool.false_eq_true]
  | echo => simp only [Peer.receivedEchoHandler, Peer.sendRawDatagram, Peer.put, hw, if_true]
  | publicKey => simp only [Peer.sendAck, Peer.sendRawDatagram, Peer.put, hw, if_true]
  | _ => simp only [hw, if_true]

theorem Inv.echoHandler (h : Inv env conf p) (hp : p.datagramHandler = .echo) :
    Inv env conf (p.echoHandler d).1 := by
  have hb := h.echoBits hp
  rw [echoHandler_eq h hp]
  show Inv env conf (match d.type with | .echo => _ | .echoBack => _ | .publicKey => _ | _ => _)
  split
  · exact h.put _
  · split
    · exact h
    · refine ⟨?_, h.spriv, fun _ => h.epriv (by rw [hp]; decide), h.epub, h.peerKeys,
        fun he => (by cases he), fun _ => h.keyed (by rw [hb])⟩
      show BitsOk .established { p.currentState with waitForEcho := false }
      rw [hb]
      rfl
  · exact h.put _
  · exact h

/-! ## Established -/

theorem Inv.reset (h : Inv env conf p) : Inv env conf (((({ p.reset env conf with
    currentState := { Bits.initial with receivedHello := true } } : Peer).sendHello
      conf).receivedHelloHandler env conf d)) where
  bits := ⟨false, true, rfl⟩
  spriv := rfl
  epriv hne := absurd rfl hne
  epub := h.epub
  peerKeys hk := by cases hk
  echo he := by cases he
  keyed hk := by cases hk

theorem decryptPayload_established (h : Inv env conf p) (hp : p.datagramHandler = .established) :
    ∃ k, p.encryptLayer = some k := by
  obtain ⟨-, -, -, -, -, k, -, -, -, -, -, -, -, hk⟩ := h.keyed (by rw [h.establishedBits hp])
  exact ⟨k, hk⟩

theorem Inv.establishedHandler (h : Inv env conf p) (hp : p.datagramHandler = .established) :
    Inv env conf (p.establishedHandler env conf d).1 := by
  unfold Peer.establishedHandler
  rw [if_neg (by simp [h.established hp])]
  split
  · exact h.reset
  · exact h.put _
  · rw [receivedEchoBackHandler_established h hp]
    exact h
  · exact h.put _
  · split
    · exact h
    · exact h.of_same (feedStream_same _ _)

/-! ## Runs -/

theorem Inv.recv (h : Inv env conf p) : Inv env conf (p.recv env conf d priv).1 := by
  unfold Peer.recv
  split
  · rename_i hp; exact h.helloHandler hp
  · rename_i hp; exact h.publicKeyExchangeHandler hp
  · rename_i hp; exact h.echoHandler hp
  · rename_i hp; exact h.establishedHandler hp

theorem Inv.handle {e : Event} {r : Peer × Option Exc} (h : Inv env conf p)
    (hr : p.handle env conf e = some r) : Inv env conf r.1 := by
  by_cases he : e.isStream = true
  · exact h.of_same (handle_stream_same hr he)
  · cases e with
    | recv d priv =>
      simp only [Peer.handle, Option.some.injEq] at hr
      subst hr
      exact h.recv
    | expire =>
      simp only [Peer.handle, Option.map_eq_some_iff] at hr
      obtain ⟨t, -, rfl⟩ := hr
      exact h.same rfl rfl rfl rfl rfl rfl
    | retransmit =>
      simp only [Peer.handle, Option.map_eq_some_iff] at hr
      obtain ⟨t, -, rfl⟩ := hr
      exact h.same rfl rfl rfl rfl rfl rfl
    | _ => exact absurd rfl he

end ShadowTalk.Sml.Peer
