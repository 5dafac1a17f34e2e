import ShadowTalk.Sml.Trust
import ShadowTalk.Sml.Turn

/-!
# What the handlers rely on

`datagram_handler_` and `current_state_` are set in different places, and an
exception may leave a transition half done. Still, in every run of a peer the
handler tells which bits and fields are set, and so no handler throws
`unknown_error` or dereferences a null pointer, no datagram is encrypted without
a key, and `new_peer` is announced once for each handshake.

* `Plain`: a step that neither announces a peer nor computes a key.
* `completes_iff`: `wait_for_echo` is cleared by the awaited echo reply alone.
* `handler_invariant`: all of it, for every run.
-/
namespace ShadowTalk.Sml.Peer
open ShadowTalk.Core

/-! ## What is put out -/

/-- The announcements among the effects. -/
def newPeers (es : List PeerEff) : List Bytes :=
  es.filterMap fun | .newPeer id => some id | _ => none

/-- The ciphers that `send_datagram` dereferences. -/
def layers (es : List PeerEff) : List (Option Bytes) :=
  es.filterMap fun | .sendEncrypted layer _ => some layer | _ => none

@[simp] theorem newPeers_nil : newPeers [] = [] := rfl
@[simp] theorem layers_nil : layers [] = [] := rfl
@[simp] theorem newPeers_append (l m : List PeerEff) :
    newPeers (l ++ m) = newPeers l ++ newPeers m := List.filterMap_append
@[simp] theorem layers_append (l m : List PeerEff) : layers (l ++ m) = layers l ++ layers m :=
  List.filterMap_append

section
variable (es : List PeerEff)

@[simp] theorem newPeers_send (d : Datagram) : newPeers (.send d :: es) = newPeers es := rfl
@[simp] theorem layers_send (d : Datagram) : layers (.send d :: es) = layers es := rfl
@[simp] theorem newPeers_sendEncrypted (k : Option Bytes) (d : Datagram) :
    newPeers (.sendEncrypted k d :: es) = newPeers es := rfl
@[simp] theorem layers_sendEncrypted (k : Option Bytes) (d : Datagram) :
    layers (.sendEncrypted k d :: es) = k :: layers es := rfl
@[simp] theorem newPeers_agree (id spub : Bytes) :
    newPeers (.agree id spub :: es) = newPeers es := rfl
@[simp] theorem layers_agree (id spub : Bytes) : layers (.agree id spub :: es) = layers es := rfl
@[simp] theorem newPeers_newPeer (id : Bytes) :
    newPeers (.newPeer id :: es) = id :: newPeers es := rfl
@[simp] theorem layers_newPeer (id : Bytes) : layers (.newPeer id :: es) = layers es := rfl

end

variable {env : Env} {conf : Configuration} {p q : Peer} {d : Datagram} {priv : Bytes}

/-- Neither an announcement nor an agreement is put out, and what is encrypted is
encrypted with the cipher of `p`, which is there if `p` is established. -/
structure Plain (p q : Peer) : Prop where
  newPeers : newPeers q.out = newPeers p.out
  agrees : agrees q.out = agrees p.out
  layers : ∀ k ∈ layers q.out, k ∈ layers p.out ∨
    k = p.encryptLayer ∧ p.currentState.established = true

theorem Plain.refl (p : Peer) : Plain p p := ⟨rfl, rfl, fun _ h => .inl h⟩

/-- The three are read off the output. -/
theorem Plain.of_out {es : List PeerEff} (h : q.out = p.out ++ es)
    (hn : Peer.newPeers es = []) (ha : Peer.agrees es = []) (hl : Peer.layers es = []) :
    Plain p q := by
  refine ⟨?_, ?_, fun k hk => .inl ?_⟩
  · rw [h, newPeers_append, hn, List.append_nil]
  · rw [h, agrees_append, ha, List.append_nil]
  · rwa [h, layers_append, hl, List.append_nil] at hk

/-! ## Streams -/

theorem Plain.streamEff (h : Plain p q) (hs : SameHandshake p q) (id : UInt32) (e : StreamEff) :
    Plain p (q.streamEff id e) := by
  cases e with
  | recvData payload =>
    refine ⟨?_, ?_, fun k hk => h.layers k ?_⟩
    · show Peer.newPeers (q.out ++ [.recvData id payload]) = _
      rw [newPeers_append, h.newPeers]
      exact List.append_nil _
    · show Peer.agrees (q.out ++ [.recvData id payload]) = _
      rw [agrees_append, h.agrees]
      exact List.append_nil _
    · change k ∈ Peer.layers (q.out ++ [.recvData id payload]) at hk
      rwa [layers_append, show Peer.layers [.recvData id payload] = [] from rfl,
        List.append_nil] at hk
  | sendDatagram d =>
    show Plain p (q.sendDatagram d)
    unfold sendDatagram
    split
    · rename_i he
      refine ⟨?_, ?_, fun k hk => ?_⟩
      · simp [put, h.newPeers]
      · show Peer.agrees (q.out ++ [.sendEncrypted q.encryptLayer d]) = _
        rw [agrees_append, h.agrees]
        exact List.append_nil _
      · simp only [put, layers_append, layers_sendEncrypted, layers_nil, List.mem_append,
          List.mem_singleton] at hk
        rcases hk with hk | hk
        · exact h.layers k hk
        · exact .inr ⟨hk.trans hs.encryptLayer, by rw [← hs.currentState]; exact he⟩
    · exact h

theorem plain_putStream (p : Peer) (id : UInt32) (r : Stream × List StreamEff) :
    Plain p (p.putStream id r) := by
  unfold putStream
  generalize hq : ({ p with streamMap := p.streamMap.set id r.1 } : Peer) = q
  have hs : SameHandshake p q := hq ▸ .ofStreams p _
  have h : Plain p q := hq ▸ .of_out (List.append_nil _).symm rfl rfl rfl
  clear hq
  induction r.2 generalizing q with
  | nil => exact h
  | cons e es ih => exact ih _ (hs.trans (streamEff_same q id e)) (h.streamEff hs id e)

theorem Plain.trans {r : Peer} (h : Plain p q) (h' : Plain q r) (hs : SameHandshake p q) :
    Plain p r where
  newPeers := h'.newPeers.trans h.newPeers
  agrees := h'.agrees.trans h.agrees
  layers k hk := by
    rcases h'.layers k hk with hk | ⟨hk, he⟩
    · exact h.layers k hk
    · exact .inr ⟨hk.trans hs.encryptLayer, by rw [← hs.currentState]; exact he⟩

theorem plain_feedStream (p : Peer) (d : Datagram) : Plain p (p.feedStream d) := by
  have h : SameHandshake p (p.feedStream d) ∧ Plain p (p.feedStream d) := by
    apply feedStream_induct (P := fun q => SameHandshake p q ∧ Plain p q) d ⟨.refl p, .refl p⟩
    · exact ⟨(SameHandshake.ofStreams p _).trans (.ofPut _ rfl rfl), .of_out rfl rfl rfl rfl⟩
    · intro q r hq
      exact ⟨hq.1.trans (putStream_same _ _ _), hq.2.trans (plain_putStream _ _ _) hq.1⟩
  exact h.2

/-- A stream event puts out nothing of the handshake. -/
theorem plain_stream {e : Event} {r : Peer × Option Exc} (hr : p.handle env conf e = some r)
    (he : e.isStream = true) : r.2 = none ∧ Plain p r.1 := by
  cases e with
  | recv d priv => cases he
  | expire => cases he
  | retransmit => cases he
  | addStream id =>
    simp only [handle, Option.some.injEq] at hr
    subst hr
    refine ⟨rfl, ?_⟩
    unfold addStream
    split
    · exact .refl p
    · exact .of_out (List.append_nil _).symm rfl rfl rfl
  | delStream id =>
    simp only [handle, Option.some.injEq] at hr
    subst hr
    exact ⟨rfl, .of_out (List.append_nil _).symm rfl rfl rfl⟩
  | send id data =>
    simp only [handle, Option.map_eq_some_iff] at hr
    obtain ⟨s, -, rfl⟩ := hr
    exact ⟨rfl, plain_putStream _ _ _⟩
  | streamExpire id =>
    simp only [handle, Option.bind_eq_some_iff, Option.map_eq_some_iff] at hr
    obtain ⟨s, -, s', -, rfl⟩ := hr
    exact ⟨rfl, .of_out (List.append_nil _).symm rfl rfl rfl⟩
  | streamRetransmit id =>
    simp only [handle, Option.bind_eq_some_iff, Option.map_eq_some_iff] at hr
    obtain ⟨s, -, s', -, rfl⟩ := hr
    exact ⟨rfl, plain_putStream _ _ _⟩

/-! ## Phases -/

/-- The bits and fields that go with each handler. -/
def HandlerState (env : Env) (p : Peer) : Prop :=
  match p.datagramHandler with
  | .hello => p.currentState.sentHello = true ∧ p.currentState.sentPublicKey = false ∧
      p.currentState.receivedPublicKeyAck = false ∧ p.currentState.receivedPublicKey = false
  | .publicKeyExchange => p.currentState.helloComplete = true ∧
      p.currentState.sentPublicKey = true ∧
      ∃ e, p.dh.epriv = some e ∧ p.dh.epub = some (env.ephemeralPub e)
  | .echo => p.currentState.established = true ∧ p.encryptLayer.isSome = true ∧
      p.sentEchoDatagram.isSome = true ∧ p.currentState.waitForEcho = true
  | .established => p.currentState.established = true ∧ p.encryptLayer.isSome = true ∧
      p.currentState.waitForEcho = false

/-- The echo reply that `echo_handler` waits for arrives. -/
def Completes (p : Peer) : Event → Prop
  | .recv d _ => p.datagramHandler = .echo ∧ d.type = .echoBack ∧
      ∃ echo, p.sentEchoDatagram = some echo ∧ d.payload = echo.payload
  | _ => False

theorem Inv.waitForEcho_iff (h : Inv env conf p) :
    p.currentState.waitForEcho = true ↔ p.datagramHandler = .echo := by
  cases hp : p.datagramHandler with
  | hello =>
    obtain ⟨ha, hr, hb⟩ := h.helloBits hp
    simp [hb]
  | publicKeyExchange =>
    obtain ⟨pa, pr, hb⟩ := h.exchangeBits hp
    simp [hb]
  | echo => simp [h.echoBits hp]
  | established => simp [h.establishedBits hp]

theorem Inv.encryptLayer (h : Inv env conf p) (he : p.currentState.sharedKeyAgreement = true) :
    p.encryptLayer.isSome = true := by
  obtain ⟨-, -, -, -, -, k, -, -, -, -, -, -, -, hk⟩ := h.keyed he
  rw [hk]
  rfl

theorem Inv.handlerState (h : Inv env conf p) : HandlerState env p := by
  unfold HandlerState
  split
  · rename_i hp
    obtain ⟨ha, hr, hb⟩ := h.helloBits hp
    simp [hb]
  · rename_i hp
    obtain ⟨pa, pr, hb⟩ := h.exchangeBits hp
    obtain ⟨e, he⟩ := h.epriv (by rw [hp]; decide)
    refine ⟨by simp [hb, Bits.helloComplete], by simp [hb], e, he, ?_⟩
    rw [h.epub, he]
    rfl
  · rename_i hp
    have hb := h.echoBits hp
    have hlayer := h.encryptLayer (by rw [hb])
    rw [h.echo hp, hb]
    exact ⟨rfl, hlayer, rfl, rfl⟩
  · rename_i hp
    have hb := h.establishedBits hp
    have hlayer := h.encryptLayer (by rw [hb])
    rw [hb]
    exact ⟨rfl, hlayer, rfl⟩

/-! ## One step -/

/-- The bit is set in `echo_handler` only, and of what may happen there only the
awaited reply clears it. -/
theorem Turn.completes_iff {r : Peer × Option Exc} (hi : Inv env conf p)
    (h : Turn env conf p d priv r) : Completes p (.recv d priv) ↔
      p.currentState.waitForEcho = true ∧ r.1.currentState.waitForEcho = false := by
  have other : p.datagramHandler ≠ .echo → (Completes p (.recv d priv) ↔
      p.currentState.waitForEcho = true ∧ r.1.currentState.waitForEcho = false) := by
    intro hp
    constructor
    · intro hc
      exact absurd hc.1 hp
    · intro hw
      exact absurd (hi.waitForEcho_iff.1 hw.1) hp
  -- where nothing is cleared, the datagram is not the awaited one
  have kept : r.1.currentState = p.currentState →
      (p.datagramHandler = .echo → d.type = .echoBack → d.payload ≠ echoContent) →
      (Completes p (.recv d priv) ↔
        p.currentState.waitForEcho = true ∧ r.1.currentState.waitForEcho = false) := by
    intro hs hno
    constructor
    · intro hc
      obtain ⟨hp, ht, echo, he, hpay⟩ := hc
      rw [hi.echo hp, Option.some.injEq] at he
      subst he
      exact absurd hpay (hno hp ht)
    · intro hw
      rw [hs, hw.1] at hw
      cases hw.2
  cases h with
  | hello hp ht hn => exact other (by rw [hp]; decide)
  | helloDone hp ht hc => exact other (by rw [hp]; decide)
  | key hp ht hn => exact other (by rw [hp]; decide)
  | keyFailed hp ht hc shared key hx => exact other (by rw [hp]; decide)
  | keyDone hp ht hc v k => exact other (by rw [hp]; decide)
  | echoDone hp ht hc =>
    constructor
    · intro _
      exact ⟨hi.waitForEcho_iff.2 hp, rfl⟩
    · intro _
      exact ⟨hp, ht, _, hi.echo hp, hc⟩
  | reset hp ht => exact other (by rw [hp]; decide)
  | answer hp ht => exact kept rfl fun _ h => (by rw [ht] at h; cases h)
  | keyAgain hp ht => exact kept rfl fun _ h => (by rw [ht] at h; cases h)
  | abort hp ht => exact other (by rw [hp]; decide)
  | feed hp ht payload => exact other (by rw [hp]; decide)
  | undecryptable hp ht => exact other (by rw [hp]; decide)
  | ignore hp he => exact kept rfl he

/-- What a step throws and puts out. -/
structure StepOk (p : Peer) (e : Event) (r : Peer × Option Exc) : Prop where
  unknownError : r.2 ≠ some .unknownError
  nullDeref : r.2 ≠ some .nullDeref
  agrees : agrees r.1.out ≠ agrees p.out →
    r.1.dh.epriv.isSome = true ∧ r.1.dh.peerEpub.isSome = true
  layers : ∀ k ∈ layers r.1.out, k ∈ layers p.out ∨
    k = p.encryptLayer ∧ p.currentState.established = true
  completes : Completes p e ↔
    p.currentState.waitForEcho = true ∧ r.1.currentState.waitForEcho = false
  newPeers : newPeers r.1.out = newPeers p.out ++
    if p.currentState.waitForEcho = true ∧ r.1.currentState.waitForEcho = false then [p.id] else []

/-- A step that announces nothing, in a phase or with a datagram that completes
nothing. -/
theorem Plain.stepOk {e : Event} {r : Peer × Option Exc} (h : Plain p r.1)
    (hu : r.2 ≠ some .unknownError) (hn : r.2 ≠ some .nullDeref)
    (hc : Completes p e ↔
      p.currentState.waitForEcho = true ∧ r.1.currentState.waitForEcho = false)
    (hno : ¬ Completes p e) : StepOk p e r where
  unknownError := hu
  nullDeref := hn
  agrees ha := absurd h.agrees ha
  layers := h.layers
  completes := hc
  newPeers := by
    rw [if_neg fun hw => hno (hc.2 hw), List.append_nil]
    exact h.newPeers

theorem HelloTake.plain (h : HelloTake env conf p d q) : Plain p q := by
  cases h with
  | hello ht => exact .of_out rfl rfl rfl rfl
  | ack ht => exact .of_out (List.append_nil _).symm rfl rfl rfl

theorem KeyTake.plain (h : KeyTake p d q) : Plain p q := by
  cases h with
  | key ht => exact .of_out rfl rfl rfl rfl
  | ack ht => exact .of_out (List.append_nil _).symm rfl rfl rfl
  | hello ht => exact .of_out rfl rfl rfl rfl
  | ignore => exact .refl p

/-- The key exchange is complete: both ephemeral keys are there. -/
theorem KeyTake.keys (h : KeyTake p d q) (hi : Inv env conf p)
    (hp : p.datagramHandler = .publicKeyExchange)
    (hc : q.currentState.publicKeyExchanged = true) :
    q.dh.epriv.isSome = true ∧ q.dh.peerEpub.isSome = true := by
  have hq := h.inv hi hp
  have hr : q.currentState.receivedPublicKey = true := by
    simp only [Bits.publicKeyExchanged, Bool.and_eq_true] at hc
    exact hc.1.2
  obtain ⟨e, he⟩ := hq.epriv (by rw [h.handler, hp]; decide)
  obtain ⟨pb, qb, -, hqb⟩ := hq.peerKeys hr
  rw [he, hqb]
  exact ⟨rfl, rfl⟩

theorem Turn.stepOk {r : Peer × Option Exc} (hi : Inv env conf p)
    (h : Turn env conf p d priv r) : StepOk p (.recv d priv) r := by
  have hc := h.completes_iff hi
  have hwait : p.datagramHandler = .publicKeyExchange → p.currentState.waitForEcho = false := by
    intro hp
    rw [Bool.eq_false_iff]
    intro hw
    rw [hi.waitForEcho_iff, hp] at hw
    cases hw
  have phase : p.datagramHandler ≠ .echo → ¬ Completes p (.recv d priv) := fun hp h => hp h.1
  have type : d.type ≠ .echoBack → ¬ Completes p (.recv d priv) := fun ht h => ht h.2.1
  cases h with
  | hello hp ht hn => exact ht.plain.stepOk (by simp) (by simp) hc (phase (by rw [hp]; decide))
  | @helloDone q hp ht hd =>
    have hs : Plain q (q.helloCompleteHandler env priv) := .of_out rfl rfl rfl rfl
    have hsame := ht.plain
    refine Plain.stepOk ⟨hs.newPeers.trans hsame.newPeers, hs.agrees.trans hsame.agrees, ?_⟩
      (by simp) (by simp) hc (phase (by rw [hp]; decide))
    intro k hk
    exact hsame.layers k (by
      simpa [helloCompleteHandler, sendPublicKey, sendRawDatagramWithRetransmit, sendRawDatagram,
        put] using hk)
  | key hp ht hn => exact ht.plain.stepOk (by simp) (by simp) hc (phase (by rw [hp]; decide))
  | @keyFailed q hp ht hd shared key x hx =>
    have hsame := ht.plain
    have hout : (q.agreeing shared key).out = q.out ++ [.agree q.id (q.dh.peerSpub.getD [])] := rfl
    refine ⟨?_, ?_, fun _ => ht.keys hi hp hd, fun k hk => hsame.layers k ?_, hc, ?_⟩
    · rcases hx with rfl | rfl <;> simp
    · rcases hx with rfl | rfl <;> simp
    · simpa [hout] using hk
    · simp [hout, hsame.newPeers, hwait hp]
  | @keyDone q hp ht hd v k =>
    have hsame := ht.plain
    have hout : (q.keyed v k).out = q.out ++ [.agree q.id (q.dh.peerSpub.getD [])] ++
        [.send (.createEcho echoContent)] := rfl
    refine ⟨by simp, by simp, fun _ => ht.keys hi hp hd, fun k hk => hsame.layers k ?_, hc, ?_⟩
    · simpa [hout] using hk
    · simp [hout, hsame.newPeers, hwait hp]
  | echoDone hp ht hcont =>
    refine ⟨by simp, by simp, fun ha => absurd ?_ ha, fun k hk => .inl ?_, hc, ?_⟩
    · simp [finish, put]
    · simpa [finish, put] using hk
    · have hw : p.currentState.waitForEcho = true := hi.waitForEcho_iff.2 hp
      simp [finish, put, hw]
  | reset hp ht =>
    have hs : Plain p (p.restarted env conf d) :=
      .of_out (List.append_assoc p.out [.send (.createHello conf.id)] [.send (.createAck 0 0)])
        rfl rfl rfl
    exact hs.stepOk (by simp) (by simp) hc (phase (by rw [hp]; decide))
  | answer hp ht =>
    exact (Plain.of_out rfl rfl rfl rfl).stepOk (by simp) (by simp) hc (type (by rw [ht]; decide))
  | keyAgain hp ht =>
    exact (Plain.of_out rfl rfl rfl rfl).stepOk (by simp) (by simp) hc (type (by rw [ht]; decide))
  | abort hp ht =>
    exact (Plain.of_out rfl rfl rfl rfl).stepOk (by simp) (by simp) hc (phase (by rw [hp]; decide))
  | feed hp ht payload =>
    exact (plain_feedStream p _).stepOk (by simp) (by simp) hc (phase (by rw [hp]; decide))
  | undecryptable hp ht =>
    exact (Plain.refl p).stepOk (by simp) (by simp) hc (phase (by rw [hp]; decide))
  | ignore hp he =>
    refine (Plain.refl p).stepOk (by simp) (by simp) hc ?_
    intro h
    obtain ⟨h1, h2⟩ := hc.1 h
    rw [h1] at h2
    cases h2

theorem stepOk_of_handle {e : Event} {r : Peer × Option Exc} (hi : Inv env conf p)
    (hr : p.handle env conf e = some r) : StepOk p e r := by
  have kept : r.2 = none → Plain p r.1 → r.1.currentState = p.currentState →
      ¬ Completes p e → StepOk p e r := by
    intro hx h hs hno
    refine h.stepOk (by simp [hx]) (by simp [hx]) ⟨fun h => absurd h hno, fun hw => ?_⟩ hno
    rw [hs, hw.1] at hw
    cases hw.2
  by_cases he : e.isStream = true
  · obtain ⟨hx, hp⟩ := plain_stream hr he
    apply kept hx hp (handle_stream_same hr he).currentState
    intro hc
    cases e with
    | recv d priv => cases he
    | _ => exact hc
  · cases e with
    | recv d priv =>
      simp only [Peer.handle, Option.some.injEq] at hr
      rw [← hr]
      exact (turn_of_recv hi d priv).stepOk hi
    | expire =>
      simp only [Peer.handle, Option.map_eq_some_iff] at hr
      obtain ⟨t, -, rfl⟩ := hr
      exact kept rfl (.of_out (List.append_nil _).symm rfl rfl rfl) rfl fun h => h
    | retransmit =>
      simp only [Peer.handle, Option.map_eq_some_iff] at hr
      obtain ⟨t, -, rfl⟩ := hr
      exact kept rfl (.of_out rfl rfl rfl rfl) rfl fun h => h
    | _ => exact absurd rfl he

/-! ## Runs -/

theorem layers_inductive (env : Env) (conf : Configuration) :
    (lts env conf).Inductive fun p => Inv env conf p ∧ ∀ k ∈ layers p.out, k.isSome = true where
  init := forall_eq.2 ⟨inv_new env conf, List.forall_mem_nil _⟩
  step p e p' h hs := by
    obtain ⟨r, hr, rfl⟩ := Option.map_eq_some_iff.1 hs
    refine ⟨h.1.handle hr, fun k hk => ?_⟩
    rcases (stepOk_of_handle h.1 hr).layers k hk with hk | ⟨hk, he⟩
    · exact h.2 k hk
    · rw [hk]
      apply h.1.encryptLayer
      simp only [Bits.established, Bool.and_eq_true] at he
      exact he.2

/-- In every run of a peer, whatever it receives and whatever fails: the handler
tells the bits and fields; nothing is encrypted without a key; and in every step
neither `unknown_error` is thrown nor a null pointer dereferenced, a shared key
is computed only with both ephemeral keys set, and `new_peer` is put out just
when `wait_for_echo` is cleared, which the awaited echo reply does. -/
theorem handler_invariant (h : (lts env conf).Reachable p) :
    HandlerState env p ∧ (∀ k ∈ layers p.out, k.isSome = true) ∧
      ∀ e r, p.handle env conf e = some r →
        (r.2 ≠ some .unknownError ∧ r.2 ≠ some .nullDeref) ∧
        (agrees r.1.out ≠ agrees p.out →
          r.1.dh.epriv.isSome = true ∧ r.1.dh.peerEpub.isSome = true) ∧
        (Completes p e ↔
          p.currentState.waitForEcho = true ∧ r.1.currentState.waitForEcho = false) ∧
        newPeers r.1.out = newPeers p.out ++
          if p.currentState.waitForEcho = true ∧ r.1.currentState.waitForEcho = false then [p.id]
          else [] := by
  obtain ⟨hi, hl⟩ := (layers_inductive env conf).reachable h
  refine ⟨hi.handlerState, hl, fun e r hr => ?_⟩
  have hs := stepOk_of_handle hi hr
  exact ⟨⟨hs.unknownError, hs.nullDeref⟩, hs.agrees, hs.completes, hs.newPeers⟩

/-- A whole handshake announces the peer once. -/
theorem handler_invariant_helloTrace : ∃ p : Peer, (∃ e r,
    p.handle smallEnv smallConfA e = some r ∧ newPeers r.1.out = [[98]]) ∧
      HandlerState smallEnv p := by
  have hrun : ∃ p, (lts smallEnv smallConfA).Reachable p ∧
      p.currentState.waitForEcho = true ∧ newPeers p.out = [] ∧ p.id = [98] ∧
        (p.recv smallEnv smallConfA (.createEchoBack (.createEcho echoContent))
          []).1.currentState.waitForEcho = false :=
    LTS.exists_reachable_of_exec (helloTrace [98]) rfl (by decide +kernel)
  obtain ⟨p, hr, hw, ho, hid, hw'⟩ := hrun
  obtain ⟨hs, -, hstep⟩ := handler_invariant hr
  refine ⟨p, ⟨.recv (.createEchoBack (.createEcho echoContent)) [], _, rfl, ?_⟩, hs⟩
  obtain ⟨-, -, -, hnew⟩ := hstep (.recv (.createEchoBack (.createEcho echoContent)) []) _ rfl
  rw [hnew, ho, if_pos ⟨hw, hw'⟩, hid]
  rfl

end ShadowTalk.Sml.Peer
