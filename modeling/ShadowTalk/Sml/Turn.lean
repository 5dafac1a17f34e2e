import ShadowTalk.Sml.PeerInv

/-!
# What a datagram can do to a peer

`Turn` lists the outcomes of `datagram_handler_(d)` once, for a peer that meets
its invariant: which phase it was in, what it became, what was thrown. Later
results about a peer are case analyses of it.

* `turn_of_recv`: the list is complete.
* `recv_hello`, `recv_abort`: what ends the session of an established peer.
-/
namespace ShadowTalk.Sml.Peer
open ShadowTalk.Core

/-- A hello or its acknowledgement has been received. -/
inductive HelloTake (env : Env) (conf : Configuration) (p : Peer) (d : Datagram) : Peer → Prop
  | hello (ht : d.type = .hello) : HelloTake env conf p d (p.receivedHelloHandler env conf d)
  | ack (ht : d.type = .ack) : HelloTake env conf p d p.receivedHelloAckHandler

/-- What the key exchange does with a datagram before it looks at the bits. -/
inductive KeyTake (p : Peer) (d : Datagram) : Peer → Prop
  | key (ht : d.type = .publicKey) : KeyTake p d (p.receivedPublicKeyHandler d)
  | ack (ht : d.type = .ack) : KeyTake p d p.receivedPublicKeyAckHandler
  | hello (ht : d.type = .hello) : KeyTake p d p.sendAck
  | ignore : KeyTake p d p

/-- `generate_shared_key` has been called and has stored a value, or not. -/
def agreeing (p : Peer) (shared key : Option Bytes) : Peer :=
  { p.put (.agree p.id (p.dh.peerSpub.getD [])) with dh := { p.dh with shared := shared }, key := key }

/-- The shared key is there: `send_echo`, and on to `echo_handler`. -/
def keyed (p : Peer) (v k : Bytes) : Peer :=
  { ({ p.agreeing (some v) (some v) with
      encryptLayer := some k
      currentState := { p.currentState with sharedKeyAgreement := true } } : Peer).sendEcho with
    datagramHandler := .echo }

/-- The awaited echo is back. -/
def finish (p : Peer) : Peer :=
  Peer.put { p with
    timer := p.timer.cancel
    currentState := { p.currentState with waitForEcho := false }
    datagramHandler := .established } (.newPeer p.id)

/-- `reset`, and the handshake from the start. -/
def restarted (env : Env) (conf : Configuration) (p : Peer) (d : Datagram) : Peer :=
  (({ p.reset env conf with currentState := { Bits.initial with receivedHello := true } } :
    Peer).sendHello conf).receivedHelloHandler env conf d

inductive Turn (env : Env) (conf : Configuration) (p : Peer) (d : Datagram) (priv : Bytes) :
    Peer × Option Exc → Prop
  | hello {q} (hp : p.datagramHandler = .hello) (ht : HelloTake env conf p d q)
    (hn : ¬ q.currentState.helloComplete = true) : Turn env conf p d priv (q, none)
  | helloDone {q} (hp : p.datagramHandler = .hello) (ht : HelloTake env conf p d q)
    (hc : q.currentState.helloComplete = true) :
    Turn env conf p d priv (q.helloCompleteHandler env priv, none)
  | key {q} (hp : p.datagramHandler = .publicKeyExchange) (ht : KeyTake p d q)
    (hn : ¬ q.currentState.publicKeyExchanged = true) : Turn env conf p d priv (q, none)
  | keyFailed {q} (hp : p.datagramHandler = .publicKeyExchange) (ht : KeyTake p d q)
    (hc : q.currentState.publicKeyExchanged = true) (shared key : Option Bytes) {x : Exc}
    (hx : x = .runtimeError ∨ x = .invalidDataError) :
    Turn env conf p d priv (q.agreeing shared key, some x)
  | keyDone {q} (hp : p.datagramHandler = .publicKeyExchange) (ht : KeyTake p d q)
    (hc : q.currentState.publicKeyExchanged = true) (v k : Bytes) :
    Turn env conf p d priv (q.keyed v k, none)
  | echoDone (hp : p.datagramHandler = .echo) (ht : d.type = .echoBack)
    (hc : d.payload = echoContent) : Turn env conf p d priv (p.finish, none)
  | reset (hp : p.datagramHandler = .established) (ht : d.type = .hello) :
    Turn env conf p d priv (p.restarted env conf d, none)
  | answer (hp : p.datagramHandler = .echo ∨ p.datagramHandler = .established)
    (ht : d.type = .echo) : Turn env conf p d priv (p.receivedEchoHandler d, none)
  | keyAgain (hp : p.datagramHandler = .echo) (ht : d.type = .publicKey) :
    Turn env conf p d priv (p.sendAck, none)
  | abort (hp : p.datagramHandler = .established) (ht : d.type = .abort) :
    Turn env conf p d priv (p.put .delPeer, none)
  | feed (hp : p.datagramHandler = .established) (ht : d.type ≠ .hello) (payload : Bytes) :
    Turn env conf p d priv (p.feedStream { d with payload := payload }, none)
  | undecryptable (hp : p.datagramHandler = .established) (ht : d.type ≠ .hello) :
    Turn env conf p d priv (p, some .invalidDataError)
  | ignore (hp : p.datagramHandler = .established → d.type ≠ .hello)
    (he : p.datagramHandler = .echo → d.type = .echoBack → d.payload ≠ echoContent) :
    Turn env conf p d priv (p, none)

variable {env : Env} {conf : Configuration} {p : Peer} {d : Datagram} {priv : Bytes}

theorem KeyTake.handler {q : Peer} (h : KeyTake p d q) : q.datagramHandler = p.datagramHandler := by
  cases h <;> rfl

theorem KeyTake.inv {q : Peer} (h : KeyTake p d q) (hi : Inv env conf p)
    (hp : p.datagramHandler = .publicKeyExchange) : Inv env conf q := by
  cases h with
  | key ht => exact hi.receivedPublicKeyHandler hp
  | ack ht => exact hi.receivedPublicKeyAckHandler hp
  | hello ht => exact hi.sendAck
  | ignore => exact hi

theorem turn_helloHandler (hp : p.datagramHandler = .hello) :
    Turn env conf p d priv (p.helloHandler env conf d priv, none) := by
  have complete : ∀ q, HelloTake env conf p d q → Turn env conf p d priv
      (if q.currentState.helloComplete then q.helloCompleteHandler env priv else q, none) := by
    intro q ht
    split
    · rename_i hc
      exact .helloDone hp ht hc
    · rename_i hn
      exact .hello hp ht hn
  unfold helloHandler
  split
  · rename_i ht; exact complete _ (.hello ht)
  · rename_i ht; exact complete _ (.ack ht)
  · exact .ignore (fun h => (by rw [hp] at h; cases h)) fun h => (by rw [hp] at h; cases h)

/-- The four keys are set, so the agreement is computed: it fails, its value is
too short, or there is a key. -/
theorem publicKeyExchangeCompleteHandler_cases {q : Peer} (hi : Inv env conf q)
    (hp : q.datagramHandler = .publicKeyExchange)
    (hc : q.currentState.publicKeyExchanged = true) :
    (∃ shared key x, (x = .runtimeError ∨ x = .invalidDataError) ∧
      q.publicKeyExchangeCompleteHandler env = (q.agreeing shared key, some x)) ∨
    ∃ v k, q.publicKeyExchangeCompleteHandler env = (q.keyed v k, none) := by
  obtain ⟨pa, pr, hb⟩ := hi.exchangeBits hp
  rw [hb] at hc
  obtain ⟨rfl, rfl⟩ : pr = true ∧ pa = true := by simpa [Bits.publicKeyExchanged] using hc
  obtain ⟨ea, hea⟩ := hi.epriv (by rw [hp]; decide)
  obtain ⟨pb, qb, hpb, hqb⟩ := hi.peerKeys (by rw [hb])
  have hget : q.dh.peerSpub.getD [] = pb := by rw [hpb]; rfl
  unfold publicKeyExchangeCompleteHandler
  rcases generateSharedKey_cases hi.spriv hea hpb hqb with ⟨-, hg⟩ | ⟨v, -, -, hg⟩ |
    ⟨v, k, -, -, -, hg⟩
  · exact .inl ⟨q.dh.shared, q.key, _, .inl rfl, by rw [hg, ← hget]; rfl⟩
  · exact .inl ⟨some v, some v, _, .inr rfl, by rw [hg, ← hget]; rfl⟩
  · exact .inr ⟨v, k, by rw [hg, ← hget]; rfl⟩

theorem turn_publicKeyExchangeHandler (hi : Inv env conf p)
    (hp : p.datagramHandler = .publicKeyExchange) :
    Turn env conf p d priv (p.publicKeyExchangeHandler env d) := by
  have complete : ∀ q, KeyTake p d q → Turn env conf p d priv
      (if q.currentState.publicKeyExchanged then q.publicKeyExchangeCompleteHandler env
        else (q, none)) := by
    intro q ht
    split
    · rename_i hc
      rcases publicKeyExchangeCompleteHandler_cases (ht.inv hi hp) (ht.handler.trans hp) hc with
        ⟨shared, key, x, hx, he⟩ | ⟨v, k, he⟩
      · rw [he]
        exact .keyFailed hp ht hc shared key hx
      · rw [he]
        exact .keyDone hp ht hc v k
    · rename_i hn
      exact .key hp ht hn
  unfold publicKeyExchangeHandler
  split
  · rename_i ht; exact complete _ (.key ht)
  · rename_i ht; exact complete _ (.ack ht)
  · rename_i ht; exact complete _ (.hello ht)
  · exact complete _ .ignore

theorem turn_echoHandler (hi : Inv env conf p) (hp : p.datagramHandler = .echo) :
    Turn env conf p d priv (p.echoHandler d) := by
  have hno : p.datagramHandler = .established → d.type ≠ .hello := by
    intro h
    rw [hp] at h
    cases h
  rw [echoHandler_eq hi hp]
  cases hd : d.type with
  | echo => exact .answer (.inl hp) hd
  | echoBack =>
    by_cases hc : d.payload = echoContent
    · simp only [hc, ne_eq, not_true_eq_false, if_false]
      exact .echoDone hp hd hc
    · simp only [hc, ne_eq, not_false_eq_true, if_true]
      exact .ignore hno fun _ _ => hc
  | publicKey => exact .keyAgain hp hd
  | _ => exact .ignore hno fun _ h => (by rw [hd] at h; cases h)

theorem decryptPayload_cases (hi : Inv env conf p) (hp : p.datagramHandler = .established)
    (d : Datagram) : (∃ payload, p.decryptPayload env d = .ok { d with payload := payload }) ∨
      p.decryptPayload env d = .error .invalidDataError := by
  obtain ⟨k, hk⟩ := decryptPayload_established hi hp
  unfold decryptPayload
  rw [hk]
  by_cases hl : d.payload.length ≠ 0
  · simp only [hl, ne_eq, not_false_eq_true, if_true]
    unfold Env.decrypt
    simp only
    split
    · rename_i heq
      split at heq
      · cases heq
      · exact .inl ⟨_, rfl⟩
    · rename_i heq
      split at heq
      · cases heq
        exact .inr rfl
      · cases heq
  · simp only [hl, if_false]
    exact .inl ⟨d.payload, rfl⟩

theorem turn_establishedHandler (hi : Inv env conf p) (hp : p.datagramHandler = .established) :
    Turn env conf p d priv (p.establishedHandler env conf d) := by
  have hnecho : p.datagramHandler = .echo → d.type = .echoBack → d.payload ≠ echoContent := by
    intro h
    rw [hp] at h
    cases h
  unfold establishedHandler
  rw [if_neg (by simp [hi.established hp])]
  cases hd : d.type with
  | hello => exact .reset hp hd
  | echo => exact .answer (.inr hp) hd
  | echoBack =>
    simp only [receivedEchoBackHandler_established hi hp]
    exact .ignore (fun _ => (by rw [hd]; decide)) hnecho
  | abort => exact .abort hp hd
  | _ =>
    have hne : d.type ≠ .hello := by simp [hd]
    rcases decryptPayload_cases hi hp d with ⟨payload, hdec⟩ | hdec
    · simp only [hdec]
      exact .feed hp hne payload
    · simp only [hdec]
      exact .undecryptable hp hne

/-- Whatever the phase, a received datagram has one of these outcomes. -/
theorem turn_of_recv (hi : Inv env conf p) (d : Datagram) (priv : Bytes) :
    Turn env conf p d priv (p.recv env conf d priv) := by
  unfold recv
  split
  · rename_i hp; exact turn_helloHandler hp
  · rename_i hp; exact turn_publicKeyExchangeHandler hi hp
  · rename_i hp; exact turn_echoHandler hi hp
  · rename_i hp; exact turn_establishedHandler hi hp

/-! ## The end of a session -/

/-- An established peer takes a hello for a reset. -/
theorem recv_hello (hi : Inv env conf p) (hp : p.datagramHandler = .established)
    (hd : d.type = .hello) (priv : Bytes) :
    p.recv env conf d priv = (p.restarted env conf d, none) := by
  unfold recv
  rw [hp]
  simp only [establishedHandler, hi.established hp, not_true_eq_false, if_false, hd]
  rfl

/-- It has itself deleted by an abort. -/
theorem recv_abort (hi : Inv env conf p) (hp : p.datagramHandler = .established)
    (hd : d.type = .abort) (priv : Bytes) : p.recv env conf d priv = (p.put .delPeer, none) := by
  unfold recv
  rw [hp]
  simp only [establishedHandler, hi.established hp, not_true_eq_false, if_false, hd]

theorem restarted_out (env : Env) (conf : Configuration) (p : Peer) (d : Datagram) :
    (p.restarted env conf d).out = p.out ++ [.send (.createHello conf.id), .send (.createAck 0 0)] := by
  simp [restarted, receivedHelloHandler, sendAck, sendHello, sendRawDatagramWithRetransmit,
    sendRawDatagram, put, reset]

theorem mem_streamEff {id : UInt32} {e : StreamEff} (h : .delPeer ∈ (p.streamEff id e).out) :
    .delPeer ∈ p.out := by
  cases e with
  | recvData payload =>
    rcases List.mem_append.1 h with h | h
    · exact h
    · cases List.mem_singleton.1 h
  | sendDatagram d =>
    change .delPeer ∈ (p.sendDatagram d).out at h
    unfold sendDatagram at h
    split at h
    · rcases List.mem_append.1 h with h | h
      · exact h
      · cases List.mem_singleton.1 h
    · exact h

theorem mem_putStream {id : UInt32} {u : Stream × List StreamEff}
    (h : .delPeer ∈ (p.putStream id u).out) : .delPeer ∈ p.out := by
  have key : ∀ (es : List StreamEff) (q : Peer),
      .delPeer ∈ (es.foldl (fun p e => p.streamEff id e) q).out → .delPeer ∈ q.out := by
    intro es
    induction es with
    | nil => exact fun q h => h
    | cons e es ih => exact fun q h => mem_streamEff (ih _ h)
  exact key u.2 { p with streamMap := p.streamMap.set id u.1 } h

/-- Only an abort has the peer deleted, and only in a session. -/
theorem Turn.abort_of_delPeer {r : Peer × Option Exc} (ht : Turn env conf p d priv r)
    (hout : p.out = []) (h : .delPeer ∈ r.1.out) :
    p.datagramHandler = .established ∧ d.type = .abort := by
  have hello : ∀ {q : Peer}, HelloTake env conf p d q → .delPeer ∉ q.out := by
    intro q hq
    cases hq with
    | hello ht => simp [receivedHelloHandler, sendAck, sendRawDatagram, put, hout]
    | ack ht => simp [receivedHelloAckHandler, hout]
  have key : ∀ {q : Peer}, KeyTake p d q → .delPeer ∉ q.out := by
    intro q hq
    cases hq with
    | key ht => simp [receivedPublicKeyHandler, sendAck, sendRawDatagram, put, hout]
    | ack ht => simp [receivedPublicKeyAckHandler, hout]
    | hello ht => simp [sendAck, sendRawDatagram, put, hout]
    | ignore => simp [hout]
  cases ht with
  | hello hp ht hn => exact absurd h (hello ht)
  | helloDone hp ht hc =>
    refine absurd h ?_
    simpa [helloCompleteHandler, sendPublicKey, sendRawDatagramWithRetransmit, sendRawDatagram,
      put] using hello ht
  | key hp ht hn => exact absurd h (key ht)
  | keyFailed hp ht hc shared k hx =>
    refine absurd h ?_
    simpa [agreeing, put] using key ht
  | keyDone hp ht hc v k =>
    refine absurd h ?_
    simpa [keyed, agreeing, sendEcho, sendRawDatagramWithRetransmit, sendRawDatagram, put]
      using key ht
  | echoDone hp ht hc =>
    refine absurd h ?_
    simp [finish, put, hout]
  | reset hp ht =>
    refine absurd h ?_
    rw [restarted_out, hout]
    simp
  | answer hp ht =>
    refine absurd h ?_
    simp [receivedEchoHandler, sendRawDatagram, put, hout]
  | keyAgain hp ht =>
    refine absurd h ?_
    simp [sendAck, sendRawDatagram, put, hout]
  | abort hp ht => exact ⟨hp, ht⟩
  | feed hp ht payload =>
    have hmem := feedStream_induct (P := fun q => .delPeer ∈ q.out → .delPeer ∈ p.out)
      { d with payload := payload } (fun h => h) (fun h => by
        rcases List.mem_append.1 h with h | h
        · exact h
        · cases List.mem_singleton.1 h)
      (fun q u hq h => hq (mem_putStream h)) h
    rw [hout] at hmem
    cases hmem
  | undecryptable hp ht =>
    rw [hout] at h
    cases h
  | ignore hp he =>
    rw [hout] at h
    cases h

end ShadowTalk.Sml.Peer
