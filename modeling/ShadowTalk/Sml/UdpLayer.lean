import ShadowTalk.Core.LTS
import ShadowTalk.Sml.Address
import ShadowTalk.Sml.Handshake
import Mathlib.Logic.Function.Basic

/-!
# `udp_layer`: the receive loop

The socket has at most one pending receive (`receiving`). `handle_receive` takes
it up and is the only place that starts the next one, so an exception that leaves
it ends all reception.

* `recv_ok_iff`: which datagrams a peer takes without an exception.
* `handleReceive_ok_iff`: when `handle_receive` returns and a receive is pending.
* `stopped_run`: once no receive is pending, none will be.

Limitations: `unordered_map` is a finite function. The only entry of `filter_map_`
is the one that `service` registers, and `default_filter_` is never replaced. What
is sent is recorded in `out`, the sending itself is not modelled.
-/
namespace ShadowTalk.Sml
open ShadowTalk.Core

/-! ## Which datagrams a peer takes -/

namespace Peer

variable {env : Env} {conf : Configuration} {p : Peer} {d : Datagram} {priv : Bytes}

/-- The public keys of the other side once `d` has been taken. -/
def exchangeKeys (p : Peer) (d : Datagram) : Option Bytes × Option Bytes :=
  if d.type = .publicKey then (some p.peerSpub, some d.payload) else (p.dh.peerSpub, p.dh.peerEpub)

/-- The agreement with these keys succeeds and is long enough for a key. -/
def KeysAgree (env : Env) (conf : Configuration) (p : Peer) (keys : Option Bytes × Option Bytes) :
    Prop :=
  ∃ e s q, p.dh.epriv = some e ∧ keys = (some s, some q) ∧ agreeOk env conf s e q = true

/-- In the key exchange: if `d` completes it, the keys agree. When established:
`d` is not for the streams, or its payload is empty or longer than the initial
vector. -/
def Takes (env : Env) (conf : Configuration) (p : Peer) (d : Datagram) : Prop :=
  match p.datagramHandler with
  | .hello => True
  | .publicKeyExchange =>
    p.currentState.receivedPublicKey = true ∨ d.type = .publicKey →
      p.currentState.receivedPublicKeyAck = true ∨ d.type = .ack →
        KeysAgree env conf p (p.exchangeKeys d)
  | .echo => True
  | .established =>
    d.type = .hello ∨ d.type = .echo ∨ d.type = .echoBack ∨ d.type = .abort ∨
      d.payload = [] ∨ 16 < d.payload.length

theorem exchangeComplete_ok_iff (h : Inv env conf p) (hp : p.datagramHandler = .publicKeyExchange) :
    (if p.currentState.publicKeyExchanged then p.publicKeyExchangeCompleteHandler env
      else (p, none)).2 = none ↔
      (p.currentState.receivedPublicKey = true → p.currentState.receivedPublicKeyAck = true →
        KeysAgree env conf p (p.dh.peerSpub, p.dh.peerEpub)) := by
  obtain ⟨pa, pr, hb⟩ := h.exchangeBits hp
  have hc : p.currentState.publicKeyExchanged = (pr && pa) := by
    rw [hb]; simp [Bits.publicKeyExchanged]
  rw [hc]
  cases hcc : pr && pa with
  | false =>
    rw [hb]
    simp only [Bool.false_eq_true, if_false, true_iff]
    intro h1 h2
    simp [h1, h2] at hcc
  | true =>
    obtain ⟨rfl, rfl⟩ := Bool.and_eq_true_iff.1 hcc
    have hpr : p.currentState.receivedPublicKey = true := by rw [hb]
    have hpa : p.currentState.receivedPublicKeyAck = true := by rw [hb]
    obtain ⟨ea, hea⟩ := h.epriv (by rw [hp]; decide)
    obtain ⟨pb, qb, hpb, hqb⟩ := h.peerKeys hpr
    have hkeys : KeysAgree env conf p (p.dh.peerSpub, p.dh.peerEpub) ↔
        agreeOk env conf pb ea qb = true := by
      unfold KeysAgree
      rw [hea, hpb, hqb]
      constructor
      · rintro ⟨e, s, q, he, hk, ha⟩
        cases he; cases hk
        exact ha
      · exact fun ha => ⟨ea, pb, qb, rfl, rfl, ha⟩
    simp only [if_true, hpr, hpa, forall_const, hkeys]
    unfold publicKeyExchangeCompleteHandler
    rcases generateSharedKey_cases h.spriv hea hpb hqb with ⟨hv, hg⟩ | ⟨v, hv, hlt, hg⟩ |
      ⟨v, k, hv, hle, -, hg⟩
    · rw [hg, agreeOk, hv]
      simp
    · rw [hg, agreeOk, hv]
      simp only [reduceCtorEq, decide_eq_true_eq, false_iff]
      omega
    · rw [hg, agreeOk, hv]
      simp only [decide_eq_true_eq, true_iff]
      exact hle

theorem publicKeyExchangeHandler_ok_iff (h : Inv env conf p)
    (hp : p.datagramHandler = .publicKeyExchange) :
    (p.publicKeyExchangeHandler env d).2 = none ↔ Takes env conf p d := by
  unfold Takes exchangeKeys publicKeyExchangeHandler
  rw [hp]
  cases hd : d.type with
  | publicKey =>
    have := exchangeComplete_ok_iff (h.receivedPublicKeyHandler (d := d) hp) hp
    refine this.trans ?_
    simp [receivedPublicKeyHandler, sendAck, sendRawDatagram, Peer.put, KeysAgree,
      DhKeyAgreement.setPeerPubKeyPairs]
  | ack =>
    refine (exchangeComplete_ok_iff (h.receivedPublicKeyAckHandler hp) hp).trans ?_
    simp [receivedPublicKeyAckHandler, KeysAgree]
  | hello =>
    refine (exchangeComplete_ok_iff h.sendAck hp).trans ?_
    simp [sendAck, sendRawDatagram, Peer.put, KeysAgree]
  | _ =>
    refine (exchangeComplete_ok_iff h hp).trans ?_
    simp

/-- What the cipher takes: nothing, or more than the initial vector. -/
theorem decryptPayload_ok_iff (env : Env) {key : Bytes} (hk : p.encryptLayer = some key)
    (hd : d.payload.length < 2 ^ 31) :
    (∃ d', p.decryptPayload env d = .ok d') ↔ d.payload = [] ∨ 16 < d.payload.length := by
  unfold decryptPayload
  simp only [hk, decrypt_eq env key hd]
  by_cases h0 : d.payload = []
  · simp [h0]
  · by_cases hle : d.payload.length ≤ 16
    · simp [h0, hle]
    · simp [h0, hle, not_le.1 hle]

theorem establishedHandler_ok_iff (h : Inv env conf p) (hp : p.datagramHandler = .established)
    (hd : d.payload.length < 2 ^ 31) :
    (p.establishedHandler env conf d).2 = none ↔ Takes env conf p d := by
  obtain ⟨key, hk⟩ := decryptPayload_established h hp
  have hdec := decryptPayload_ok_iff env hk hd
  unfold Takes establishedHandler
  rw [if_neg (by simp [h.established hp]), hp]
  cases ht : d.type with
  | hello => simp
  | echo => simp
  | echoBack => simp [receivedEchoBackHandler_established h hp]
  | abort => simp
  | _ =>
    cases hx : p.decryptPayload env d with
    | error x => simpa [hx] using hdec
    | ok d' => simpa [hx] using hdec

/-- Exactly these datagrams are taken without an exception. -/
theorem recv_ok_iff (h : Inv env conf p) (hd : d.payload.length < 2 ^ 31) :
    (p.recv env conf d priv).2 = none ↔ Takes env conf p d := by
  unfold Peer.recv
  cases hp : p.datagramHandler with
  | hello => simp [Takes, hp]
  | publicKeyExchange => exact publicKeyExchangeHandler_ok_iff h hp
  | echo => simp [Takes, hp, echoHandler_eq h hp]
  | established => exact establishedHandler_ok_iff h hp hd

end Peer

/-! ## The layer -/

def bufferSize : Nat := 1500

inductive UdpEff where
  /-- what the peer of this address has put out -/
  | peer (addr : Address) (e : PeerEff)
  /-- `output_ring.put(error_message("no such peer"))` -/
  | noSuchPeer (addr : Address)
  deriving DecidableEq, Repr

/-- mirrors client/sml/udp_layer.h:37-60 and client/sml/service.h:57-64 -/
structure UdpLayer where
  conf : Configuration
  /-- the key of the filter in `filter_map_` -/
  server : Address
  peerMap : Address → Option Peer
  peerList : List Address
  newPeerList : List Address
  /-- `async_receive_from` is pending -/
  receiving : Bool
  out : List UdpEff

namespace UdpLayer

def startReceive (s : UdpLayer) : UdpLayer := { s with receiving := true }

/-- mirrors client/sml/service.cpp:76-80 -/
def serverDatagramFilter (s : UdpLayer) (msg : Bytes) : Except Exc (Bool × UdpLayer) :=
  match Address.parse msg with
  | .ok a => .ok (false, { s with newPeerList := s.newPeerList ++ [a] })
  | .error x => .error x

/-- The filter registered for `addr`, or the default one. -/
def applyFilter (s : UdpLayer) (addr : Address) (msg : Bytes) : Except Exc (Bool × UdpLayer) :=
  if addr = s.server then s.serverDatagramFilter msg else .ok (true, s)

/-- `p` is the peer of `addr`: it is stored, and what it has put out is recorded. -/
def putPeer (s : UdpLayer) (addr : Address) (p : Peer) : UdpLayer :=
  { s with
    peerMap := Function.update s.peerMap addr (some p.flush)
    out := s.out ++ p.out.map (.peer addr) }

/-- mirrors client/sml/udp_layer.cpp:74-81 -/
def delPeer (s : UdpLayer) (addr : Address) : UdpLayer :=
  match s.peerMap addr with
  | some _ => { s with peerMap := Function.update s.peerMap addr none }
  | none => { s with out := s.out ++ [.noSuchPeer addr] }

section
variable (env : Env)

/-- `make_shared<peer>` and `insert`. The constructor sends a hello, and that
throws if asio does not accept the text of the address. -/
def createPeer (s : UdpLayer) (addr : Address) : Except Exc UdpLayer :=
  if env.validIp addr.ip then .ok (s.putPeer addr (.new env s.conf)) else .error .systemError

/-- `datagram_handler_` of the peer `p` of `addr`; an abort deletes the peer. -/
def peerRecv (s : UdpLayer) (addr : Address) (p : Peer) (d : Datagram) (priv : Bytes) :
    UdpLayer × Option Exc :=
  let r := p.recv env s.conf d priv
  let s := s.putPeer addr r.1
  (if .delPeer ∈ r.1.out then s.delPeer addr else s, r.2)

/-- What the peer does with the conversion to a datagram, which may have failed. -/
def peerTake (s : UdpLayer) (addr : Address) (p : Peer) (d : Except Exc Datagram) (priv : Bytes) :
    UdpLayer × Option Exc :=
  match d with
  | .error x => (s, some x)
  | .ok d => s.peerRecv env addr p d priv

/-- mirrors client/sml/peer.cpp:71-76 -/
def peerFeed (s : UdpLayer) (addr : Address) (p : Peer) (msg priv : Bytes) :
    UdpLayer × Option Exc :=
  s.peerTake env addr p (Datagram.parse env.endian msg) priv

/-- The part of `handle_receive` that feeds the peer, created at need. -/
def feedPeer (s : UdpLayer) (addr : Address) (msg priv : Bytes) : UdpLayer × Option Exc :=
  match s.peerMap addr with
  | some p => s.peerFeed env addr p msg priv
  | none =>
    match s.createPeer env addr with
    | .error x => (s, some x)
    | .ok s' => s'.peerFeed env addr (Peer.new env s.conf).flush msg priv

/-- A datagram `wire` from `e` has arrived; its first 1500 bytes are in the
buffer.
mirrors client/sml/udp_layer.cpp:22-54 -/
def handleReceive (s : UdpLayer) (e : Endpoint) (wire priv : Bytes) : UdpLayer × Option Exc :=
  let s := { s with receiving := false }
  let msg := wire.take bufferSize
  let addr := Address.ofEndpoint e
  match s.applyFilter addr msg with
  | .error x => (s, some x)
  | .ok (false, s) => (s.startReceive, none)
  | .ok (true, s) =>
    match s.feedPeer env addr msg priv with
    | (s, some x) => (s, some x)
    | (s, none) => (s.startReceive, none)

/-! ## Runs -/

/-- mirrors client/sml/udp_layer.cpp:69-72 -/
def addPeer (s : UdpLayer) (addr : Address) : UdpLayer × Option Exc :=
  if env.validIp addr.ip then
    match s.peerMap addr with
    -- `insert` keeps the old entry and drops the new peer
    | some _ => ({ s with out := s.out ++ (Peer.new env s.conf).out.map (.peer addr) }, none)
    | none => (s.putPeer addr (.new env s.conf), none)
  else (s, some .systemError)

/-- mirrors client/sml/service.cpp:53-60 -/
def queryServer (s : UdpLayer) : UdpLayer :=
  if s.newPeerList ≠ [] then { s with peerList := s.newPeerList, newPeerList := [] } else s

inductive Event where
  | receive (e : Endpoint) (wire priv : Bytes)
  | addPeer (addr : Address)
  | delPeer (addr : Address)
  | addTrustedPeerPublicKey (id publicKey : Bytes)
  /-- a timer or a stream call of the peer of `addr` -/
  | peer (addr : Address) (e : Peer.Event)
  | queryServer

/-- An event; a receive needs a pending one. -/
def step (s : UdpLayer) : Event → Option UdpLayer
  | .receive e wire priv => if s.receiving then some (s.handleReceive env e wire priv).1 else none
  | .addPeer addr => some (s.addPeer env addr).1
  | .delPeer addr => some (s.delPeer addr)
  | .addTrustedPeerPublicKey id key =>
    some { s with conf := { s.conf with trustedPeerKeyMap := s.conf.trustedPeerKeyMap.set id key } }
  | .peer addr e =>
    match e with
    | .recv _ _ => none
    | e => (s.peerMap addr).bind fun p => (p.handle env s.conf e).map fun r => s.putPeer addr r.1
  | .queryServer => some s.queryServer

end

/-- mirrors client/sml/udp_layer.cpp:5-12 and client/sml/service.cpp:7-20 -/
def new (conf : Configuration) (server : Address) : UdpLayer :=
  startReceive ⟨conf, server, fun _ => none, [], [], false, []⟩

def lts (env : Env) (conf : Configuration) (server : Address) : LTS UdpLayer Event :=
  .ofFn (· = new conf server) (step env)

/-! ## Peers -/

variable {env : Env} {s s' : UdpLayer} {addr : Address} {p : Peer} {d : Datagram}
  {wire msg priv : Bytes} {e : Endpoint}

/-- A property of stored peers that a new one has and that every event of a peer keeps. -/
structure PeerRule (env : Env) (Q : Configuration → Address → Peer → Prop) : Prop where
  new : ∀ c a, env.validIp a.ip = true → Q c a (Peer.new env c).flush
  handle : ∀ c a p ev r, Q c a p → p.handle env c ev = some r → Q c a r.1.flush
  conf : ∀ c a p id key, Q c a p →
    Q { c with trustedPeerKeyMap := c.trustedPeerKeyMap.set id key } a p

/-- Every stored peer meets `Q`. -/
def Peers (Q : Configuration → Address → Peer → Prop) (s : UdpLayer) : Prop :=
  ∀ addr p, s.peerMap addr = some p → Q s.conf addr p

variable {Q : Configuration → Address → Peer → Prop}

theorem Peers.putPeer (h : Peers Q s) (hp : Q s.conf addr p.flush) : Peers Q (s.putPeer addr p) := by
  intro a q hq
  by_cases ha : a = addr
  · subst ha
    simp only [UdpLayer.putPeer, Function.update_self, Option.some.injEq] at hq
    subst hq
    exact hp
  · exact h a q (by simpa only [UdpLayer.putPeer, Function.update_of_ne ha] using hq)

theorem Peers.delPeer (h : Peers Q s) : Peers Q (s.delPeer addr) := by
  unfold UdpLayer.delPeer
  split
  · intro a q hq
    by_cases ha : a = addr
    · subst ha
      simp only [Function.update_self, reduceCtorEq] at hq
    · exact h a q (by simpa only [Function.update_of_ne ha] using hq)
  · exact h

theorem Peers.peerRecv (hQ : PeerRule env Q) (h : Peers Q s) (hp : Q s.conf addr p) :
    Peers Q (s.peerRecv env addr p d priv).1 := by
  unfold UdpLayer.peerRecv
  have hput : Peers Q (s.putPeer addr (p.recv env s.conf d priv).1) :=
    h.putPeer (hQ.handle _ _ _ (.recv d priv) _ hp rfl)
  simp only
  split
  · exact hput.delPeer
  · exact hput

theorem Peers.peerFeed (hQ : PeerRule env Q) (h : Peers Q s) (hp : Q s.conf addr p) :
    Peers Q (s.peerFeed env addr p msg priv).1 := by
  unfold UdpLayer.peerFeed
  generalize Datagram.parse env.endian msg = r
  cases r with
  | error x => exact h
  | ok d => exact h.peerRecv hQ hp

theorem createPeer_ok {s₁ : UdpLayer} (h : s.createPeer env addr = .ok s₁) :
    env.validIp addr.ip = true ∧ s₁ = s.putPeer addr (.new env s.conf) := by
  unfold UdpLayer.createPeer at h
  split at h
  · rename_i hip
    exact ⟨hip, (Except.ok.inj h).symm⟩
  · cases h

theorem Peers.feedPeer (hQ : PeerRule env Q) (h : Peers Q s) :
    Peers Q (s.feedPeer env addr msg priv).1 := by
  unfold UdpLayer.feedPeer
  cases hp : s.peerMap addr with
  | some p => exact h.peerFeed hQ (h addr p hp)
  | none =>
    cases hc : s.createPeer env addr with
    | error x => exact h
    | ok s₁ =>
      obtain ⟨hip, rfl⟩ := createPeer_ok hc
      have hnew := hQ.new s.conf addr hip
      exact (h.putPeer hnew).peerFeed hQ hnew

/-- A datagram of the server goes to the filter. -/
theorem handleReceive_server (ha : Address.ofEndpoint e = s.server) :
    s.handleReceive env e wire priv =
      match Address.parse (wire.take bufferSize) with
      | .ok a => ({ s with newPeerList := s.newPeerList ++ [a], receiving := true }, none)
      | .error x => ({ s with receiving := false }, some x) := by
  simp only [UdpLayer.handleReceive, UdpLayer.applyFilter, ha, if_true, UdpLayer.serverDatagramFilter]
  generalize Address.parse (wire.take bufferSize) = r
  cases r <;> rfl

/-- Any other datagram goes to the peer; the next receive starts if that returns. -/
theorem handleReceive_peer (ha : Address.ofEndpoint e ≠ s.server) {r : UdpLayer × Option Exc}
    (hr : feedPeer env { s with receiving := false } (Address.ofEndpoint e) (wire.take bufferSize)
      priv = r) :
    s.handleReceive env e wire priv =
      match r.2 with
      | some x => (r.1, some x)
      | none => (r.1.startReceive, none) := by
  simp only [UdpLayer.handleReceive, UdpLayer.applyFilter, ha, if_false, hr]
  obtain ⟨s', x⟩ := r
  cases x <;> rfl

theorem Peers.handleReceive (hQ : PeerRule env Q) (h : Peers Q s) :
    Peers Q (s.handleReceive env e wire priv).1 := by
  by_cases ha : Address.ofEndpoint e = s.server
  · rw [handleReceive_server ha]
    generalize Address.parse (wire.take bufferSize) = r
    cases r <;> exact h
  · have h₀ : Peers Q { s with receiving := false } := h
    have h₁ : Peers Q (UdpLayer.feedPeer env { s with receiving := false }
        (Address.ofEndpoint e) (wire.take bufferSize) priv).1 := h₀.feedPeer hQ
    generalize hr : UdpLayer.feedPeer env { s with receiving := false } (Address.ofEndpoint e)
      (wire.take bufferSize) priv = r at h₁
    rw [handleReceive_peer ha hr]
    obtain ⟨s', x⟩ := r
    cases x <;> exact h₁

theorem Peers.step (hQ : PeerRule env Q) {ev : Event} (h : Peers Q s)
    (hs : s.step env ev = some s') : Peers Q s' := by
  cases ev with
  | receive e wire priv =>
    simp only [UdpLayer.step] at hs
    split at hs
    · cases hs; exact h.handleReceive hQ
    · cases hs
  | addPeer addr =>
    cases hs
    unfold UdpLayer.addPeer
    split
    · rename_i hip
      split
      · exact h
      · exact h.putPeer (hQ.new s.conf addr hip)
    · exact h
  | delPeer addr => cases hs; exact h.delPeer
  | addTrustedPeerPublicKey id key =>
    cases hs
    exact fun a p hp => hQ.conf s.conf a p id key (h a p hp)
  | peer addr ev =>
    have key : ((s.peerMap addr).bind fun p => (p.handle env s.conf ev).map fun r =>
        s.putPeer addr r.1) = some s' := by
      cases ev with
      | recv d priv => cases hs
      | _ => exact hs
    obtain ⟨p, hp, hs⟩ := Option.bind_eq_some_iff.1 key
    obtain ⟨r, hr, rfl⟩ := Option.map_eq_some_iff.1 hs
    exact h.putPeer (hQ.handle _ _ _ _ _ (h addr p hp) hr)
  | queryServer =>
    cases hs
    unfold UdpLayer.queryServer
    split
    · exact h
    · exact h

theorem peers_inductive (hQ : PeerRule env Q) (conf : Configuration) (server : Address) :
    (lts env conf server).Inductive (Peers Q) where
  init := forall_eq.2 fun a p hp => by cases hp
  step s ev s' h hs := h.step hQ hs

/-- Every peer is in a state of a run of its own. -/
def PeersOk (env : Env) (s : UdpLayer) : Prop :=
  ∀ addr p, s.peerMap addr = some p → p.Inv env s.conf

theorem peersOk_inductive (env : Env) (conf : Configuration) (server : Address) :
    (lts env conf server).Inductive (PeersOk env) :=
  peers_inductive (Q := fun c _ p => p.Inv env c)
    ⟨fun c _ _ => (Peer.inv_new env c).flush, fun _ _ _ _ _ hp hr => (hp.handle hr).flush,
      fun _ _ _ _ _ hp => hp.of_conf rfl⟩ conf server

/-! ## The receive loop -/

/-- A datagram after which the receive loop goes on: from the server, a text whose
part behind the last colon starts with a number below `2 ^ 64`; from everybody
else, at least a header, and a datagram that the peer takes. -/
def ReceiveOk (env : Env) (s : UdpLayer) (e : Endpoint) (wire : Bytes) : Prop :=
  if Address.ofEndpoint e = s.server then
    NumberText (Address.afterColon (wire.take bufferSize))
  else
    13 ≤ wire.length ∧
      Peer.Takes env s.conf ((s.peerMap (Address.ofEndpoint e)).getD (Peer.new env s.conf).flush)
        (Datagram.decode env.endian (wire.take bufferSize))

theorem peerFeed_ok_iff (hp : p.Inv env s.conf) (hm : msg.length < 2 ^ 31) :
    (s.peerFeed env addr p msg priv).2 = none ↔
      13 ≤ msg.length ∧ Peer.Takes env s.conf p (Datagram.decode env.endian msg) := by
  unfold UdpLayer.peerFeed
  rw [Datagram.parse_eq env.endian hm]
  have hd : (Datagram.decode env.endian msg).payload.length < 2 ^ 31 := by
    show (msg.drop 13).length < 2 ^ 31
    rw [List.length_drop]
    omega
  split
  · rename_i hl
    exact (Peer.recv_ok_iff hp hd).trans (by simp [hl])
  · rename_i hl
    simp [UdpLayer.peerTake, hl]

theorem feedPeer_ok_iff (priv : Bytes) (hip : env.validIp addr.ip = true) (h : PeersOk env s)
    (hm : msg.length < 2 ^ 31) :
    (s.feedPeer env addr msg priv).2 = none ↔ 13 ≤ msg.length ∧
      Peer.Takes env s.conf ((s.peerMap addr).getD (Peer.new env s.conf).flush)
        (Datagram.decode env.endian msg) := by
  unfold UdpLayer.feedPeer
  cases hp : s.peerMap addr with
  | some p => exact peerFeed_ok_iff (h addr p hp) hm
  | none =>
    have hc : s.createPeer env addr = .ok (s.putPeer addr (.new env s.conf)) := by
      rw [UdpLayer.createPeer, if_pos hip]
    simp only [hc]
    have hnew : (Peer.new env s.conf).flush.Inv env (s.putPeer addr (.new env s.conf)).conf :=
      (Peer.inv_new env s.conf).flush
    exact peerFeed_ok_iff hnew hm

/-- `handle_receive` returns with a receive pending exactly for these datagrams.
`hip` is that asio reads back the address of an endpoint. -/
theorem handleReceive_ok_iff {conf : Configuration} {server : Address}
    (hip : ∀ e, env.validIp (Address.ofEndpoint e).ip = true)
    (h : (lts env conf server).Reachable s) (e : Endpoint) (wire priv : Bytes) :
    ((s.handleReceive env e wire priv).2 = none ∧
      (s.handleReceive env e wire priv).1.receiving = true) ↔ ReceiveOk env s e wire := by
  have hs : PeersOk env s := (peersOk_inductive env conf server).reachable h
  have hpeers : PeersOk env { s with receiving := false } := hs
  have hlen : (wire.take bufferSize).length < 2 ^ 31 := by
    rw [List.length_take, bufferSize]
    omega
  unfold ReceiveOk
  by_cases ha : Address.ofEndpoint e = s.server
  · rw [if_pos ha, handleReceive_server ha, ← Address.parse_ok_iff]
    generalize Address.parse (wire.take bufferSize) = r
    cases r with
    | error x => simp
    | ok a => simp
  · have hfeed := feedPeer_ok_iff priv (hip e) hpeers hlen
    have h13 : 13 ≤ (wire.take bufferSize).length ↔ 13 ≤ wire.length := by
      rw [List.length_take, bufferSize]
      omega
    rw [h13] at hfeed
    rw [if_neg ha]
    refine Iff.trans ?_ hfeed
    generalize hr : UdpLayer.feedPeer env { s with receiving := false } (Address.ofEndpoint e)
      (wire.take bufferSize) priv = r
    rw [handleReceive_peer ha hr]
    obtain ⟨s', x⟩ := r
    cases x with
    | none => simp [startReceive]
    | some x => simp

/-- Once no receive is pending, none will be: nothing arrives any more. -/
theorem stopped_run {conf : Configuration} {server : Address} {evs : List Event}
    (h : s.receiving = false) (hr : (lts env conf server).Run s evs s') : s'.receiving = false := by
  refine LTS.run_invariant (P := fun s => s.receiving = false) (fun s ev s' h hs => ?_) hr h
  have hs : s.step env ev = some s' := hs
  cases ev with
  | receive e wire priv => simp [UdpLayer.step, h] at hs
  | addPeer addr =>
    cases hs
    unfold UdpLayer.addPeer
    split
    · split
      · exact h
      · exact h
    · exact h
  | delPeer addr =>
    cases hs
    unfold UdpLayer.delPeer
    split
    · exact h
    · exact h
  | addTrustedPeerPublicKey id key => cases hs; exact h
  | peer addr ev =>
    have key : ((s.peerMap addr).bind fun p => (p.handle env s.conf ev).map fun r =>
        s.putPeer addr r.1) = some s' := by
      cases ev with
      | recv d priv => cases hs
      | _ => exact hs
    obtain ⟨p, -, hs⟩ := Option.bind_eq_some_iff.1 key
    obtain ⟨r, -, rfl⟩ := Option.map_eq_some_iff.1 hs
    exact h
  | queryServer =>
    cases hs
    unfold UdpLayer.queryServer
    split
    · exact h
    · exact h

theorem smallEnv_validIp (e : Endpoint) : smallEnv.validIp (Address.ofEndpoint e).ip = true := by
  simp [smallEnv, Address.ofEndpoint]

/-- A hello of an unknown address. -/
theorem handleReceive_ok_hello :
    ((new smallConfA ⟨[], 0⟩).handleReceive smallEnv ⟨127, 0, 0, 1, 9⟩
      [2, 0, 0, 0, 0, 0, 0, 0, 0, 1, 0, 0, 0, 98] []).1.receiving = true :=
  ((handleReceive_ok_iff smallEnv_validIp (.ofInit rfl) ⟨127, 0, 0, 1, 9⟩
    [2, 0, 0, 0, 0, 0, 0, 0, 0, 1, 0, 0, 0, 98] []).2 (by
      unfold ReceiveOk
      rw [if_neg (by decide +kernel)]
      exact ⟨by decide, trivial⟩)).2

/-- Counterexample: an empty datagram. -/
theorem handleReceive_stops : ∃ s : UdpLayer, (lts smallEnv smallConfA ⟨[], 0⟩).Reachable s ∧
    s.receiving = true ∧
      (s.handleReceive smallEnv ⟨127, 0, 0, 1, 9⟩ [] []).2 = some .ioError ∧
        (s.handleReceive smallEnv ⟨127, 0, 0, 1, 9⟩ [] []).1.receiving = false :=
  ⟨new smallConfA ⟨[], 0⟩, .ofInit rfl, rfl, by decide +kernel, by decide +kernel⟩

end UdpLayer
end ShadowTalk.Sml
