import ShadowTalk.Sml.Crypto
import ShadowTalk.Sml.Stream

/-!
# `peer`: handshake and dispatch

One `peer` object. Its methods are functions on `Peer`; one that can throw also
returns the exception, with the state it leaves behind. What a method hands to
the layers around it is appended to `out`. The private key drawn by
`generate_ephemeral_key_pairs` is the argument `priv`.

* `Event`, `handle`: everything that can happen to a peer.
* `SameHandshake`, `handle_stream_same`: streams do not touch the handshake.

Limitations: `to_send_`, `send_msg_` and `recv_msg_` are never used and are left
out, and so is what is written to `std::cout`, `std::cerr` and `log`. A handler
of a stream timer that is already queued when its stream is destroyed runs on
freed memory; here it is gone.
-/
namespace ShadowTalk.Sml
open ShadowTalk.Core

/-- The bits of `current_state_`.
mirrors client/sml/peer.h:62-76 -/
structure Bits where
  sentHello : Bool
  receivedHelloAck : Bool
  receivedHello : Bool
  sentPublicKey : Bool
  receivedPublicKeyAck : Bool
  receivedPublicKey : Bool
  sharedKeyAgreement : Bool
  waitForEcho : Bool
  deriving DecidableEq, Repr

namespace Bits

def initial : Bits := ⟨false, false, false, false, false, false, false, false⟩

/-- `(current_state_ & hello_complete) == hello_complete` -/
def helloComplete (b : Bits) : Bool := b.sentHello && b.receivedHelloAck && b.receivedHello

def publicKeyExchanged (b : Bits) : Bool :=
  b.sentPublicKey && b.receivedPublicKey && b.receivedPublicKeyAck

def established (b : Bits) : Bool :=
  b.helloComplete && b.publicKeyExchanged && b.sharedKeyAgreement

end Bits

/-- What `datagram_handler_` is bound to. -/
inductive Handler where
  | hello
  | publicKeyExchange
  | echo
  | established
  deriving DecidableEq, Repr

/-- What a peer hands to its surroundings. -/
inductive PeerEff where
  /-- `send_raw_datagram` -/
  | send (d : Datagram)
  /-- `send_datagram`: the payload is encrypted with `encrypt_layer_` -/
  | sendEncrypted (layer : Option Bytes) (d : Datagram)
  /-- `DH2::Agree` is called with this static public key while `id_` is `id` -/
  | agree (id spub : Bytes)
  /-- `output_ring.put(new_peer(id_, addr_))` -/
  | newPeer (id : Bytes)
  /-- `output_ring.put(new_stream(addr_, id))` -/
  | newStream (id : UInt32)
  /-- `output_ring.put(recv_data(addr_, id, payload))` -/
  | recvData (id : UInt32) (payload : Bytes)
  /-- `udp_layer_.del_peer(addr_)` -/
  | delPeer
  deriving DecidableEq, Repr

/-- mirrors client/sml/peer.h:78-94 -/
structure Peer where
  currentState : Bits
  datagramHandler : Handler
  timer : Timer Datagram
  dh : DhKeyAgreement
  id : Bytes
  peerSpub : Bytes
  sentEchoDatagram : Option Datagram
  key : Option Bytes
  /-- `key_` of the cipher behind `encrypt_layer_` -/
  encryptLayer : Option Bytes
  streamMap : OMap UInt32 Stream
  out : List PeerEff
  deriving DecidableEq

namespace Peer

def put (p : Peer) (e : PeerEff) : Peer := { p with out := p.out ++ [e] }

/-- The peer without what it has put out. -/
def flush (p : Peer) : Peer := { p with out := [] }

/-! ## Sending -/

/-- mirrors client/sml/peer.cpp:288-292 -/
def sendRawDatagram (p : Peer) (d : Datagram) : Peer := p.put (.send d)

/-- mirrors client/sml/peer.cpp:294-302 -/
def sendRawDatagramWithRetransmit (p : Peer) (d : Datagram) : Peer :=
  let p := { p with timer := p.timer.cancel }
  let p := p.sendRawDatagram d
  { p with timer := p.timer.asyncWait d }

/-- Nothing is sent until the key agreement is complete.
mirrors client/sml/peer.cpp:272-286 -/
def sendDatagram (p : Peer) (d : Datagram) : Peer :=
  if p.currentState.established then p.put (.sendEncrypted p.encryptLayer d) else p

/-- mirrors client/sml/peer.cpp:124-126 -/
def sendAck (p : Peer) : Peer := p.sendRawDatagram (.createAck 0 0)

section
variable (env : Env) (conf : Configuration)

/-! ## Hello -/

/-- mirrors client/sml/peer.cpp:128-133 -/
def sendHello (p : Peer) : Peer :=
  let p := p.sendRawDatagramWithRetransmit (.createHello conf.id)
  { p with currentState := { p.currentState with sentHello := true }, datagramHandler := .hello }

/-- mirrors client/sml/peer.cpp:135-141 -/
def receivedHelloHandler (p : Peer) (d : Datagram) : Peer :=
  sendAck { p with
    id := d.payload
    peerSpub := env.hexStrToBytes (conf.getPeerPublicKeyById d.payload)
    currentState := { p.currentState with receivedHello := true } }

/-- mirrors client/sml/peer.cpp:143-146 -/
def receivedHelloAckHandler (p : Peer) : Peer :=
  { p with currentState := { p.currentState with receivedHelloAck := true }, timer := p.timer.cancel }

/-- mirrors client/sml/peer.cpp:155-160 -/
def sendPublicKey (p : Peer) (priv : Bytes) : Peer :=
  let p := { p with dh := p.dh.generateEphemeralKeyPairs env priv }
  let p := p.sendRawDatagramWithRetransmit (.createPublicKey (env.ephemeralPub priv))
  { p with currentState := { p.currentState with sentPublicKey := true } }

/-- mirrors client/sml/peer.cpp:148-153 -/
def helloCompleteHandler (p : Peer) (priv : Bytes) : Peer :=
  { p.sendPublicKey env priv with datagramHandler := .publicKeyExchange }

/-- mirrors client/sml/peer.cpp:321-334 -/
def helloHandler (p : Peer) (d : Datagram) (priv : Bytes) : Peer :=
  let complete (p : Peer) : Peer :=
    if p.currentState.helloComplete then p.helloCompleteHandler env priv else p
  match d.type with
  | .hello => complete (p.receivedHelloHandler env conf d)
  | .ack => complete p.receivedHelloAckHandler
  | _ => p

/-! ## Public keys -/

/-- mirrors client/sml/peer.cpp:162-167 -/
def receivedPublicKeyHandler (p : Peer) (d : Datagram) : Peer :=
  sendAck { p with
    dh := p.dh.setPeerPubKeyPairs p.peerSpub d.payload
    currentState := { p.currentState with receivedPublicKey := true } }

/-- mirrors client/sml/peer.cpp:169-172 -/
def receivedPublicKeyAckHandler (p : Peer) : Peer :=
  { p with
    currentState := { p.currentState with receivedPublicKeyAck := true }, timer := p.timer.cancel }

/-- `shared_key()` of a missing value does not arise: `generate_shared_key` has
just stored it.
mirrors client/sml/peer.cpp:80-85 -/
def generateSharedKey (p : Peer) : Peer × Option Exc :=
  let p := p.put (.agree p.id (p.dh.peerSpub.getD []))
  let r := p.dh.generateSharedKey env
  let p := { p with dh := r.1 }
  match r.2 with
  | some x => (p, some x)
  | none =>
    let key := p.dh.shared.getD []
    let p := { p with key := some key }
    match setKey key with
    | .error x => (p, some x)
    | .ok k => ({ p with encryptLayer := some k }, none)

/-- The text `"1234567890"`. -/
def echoContent : Bytes := [49, 50, 51, 52, 53, 54, 55, 56, 57, 48]

/-- mirrors client/sml/peer.cpp:182-186 -/
def sendEcho (p : Peer) : Peer :=
  let echo := Datagram.createEcho echoContent
  let p := { p with sentEchoDatagram := some echo }
  let p := p.sendRawDatagramWithRetransmit echo
  { p with currentState := { p.currentState with waitForEcho := true } }

/-- mirrors client/sml/peer.cpp:174-180 -/
def publicKeyExchangeCompleteHandler (p : Peer) : Peer × Option Exc :=
  match p.generateSharedKey env with
  | (p, some x) => (p, some x)
  | (p, none) =>
    let p := { p with currentState := { p.currentState with sharedKeyAgreement := true } }
    ({ p.sendEcho with datagramHandler := .echo }, none)

/-- mirrors client/sml/peer.cpp:336-351 -/
def publicKeyExchangeHandler (p : Peer) (d : Datagram) : Peer × Option Exc :=
  let p :=
    match d.type with
    | .publicKey => p.receivedPublicKeyHandler d
    | .ack => p.receivedPublicKeyAckHandler
    | .hello => p.sendAck
    | _ => p
  if p.currentState.publicKeyExchanged then p.publicKeyExchangeCompleteHandler env else (p, none)

/-! ## Echo -/

/-- mirrors client/sml/peer.cpp:188-190 -/
def receivedEchoHandler (p : Peer) (d : Datagram) : Peer := p.sendRawDatagram (.createEchoBack d)

/-- mirrors client/sml/peer.cpp:192-202 -/
def receivedEchoBackHandler (p : Peer) (d : Datagram) : Peer × Option Exc :=
  if p.currentState.waitForEcho then
    match p.sentEchoDatagram with
    | none => (p, some .nullDeref)
    | some echo =>
      if d.payload ≠ echo.payload then (p, none)
      else
        ({ p with timer := p.timer.cancel,
                  currentState := { p.currentState with waitForEcho := false } }, none)
  else (p, none)

/-- mirrors client/sml/peer.cpp:204-223 -/
def echoHandler (p : Peer) (d : Datagram) : Peer × Option Exc :=
  let r :=
    match d.type with
    | .echo => (p.receivedEchoHandler d, none)
    | .echoBack => p.receivedEchoBackHandler d
    | .publicKey => (p.sendAck, none)
    | _ => (p, none)
  match r with
  | (p, some x) => (p, some x)
  | (p, none) =>
    if p.currentState.waitForEcho then (p, none)
    else (({ p with datagramHandler := .established } : Peer).put (.newPeer p.id), none)

/-! ## Established -/

/-- mirrors client/sml/peer.cpp:353-366 -/
def reset (p : Peer) : Peer :=
  { p with
    currentState := .initial
    timer := p.timer.cancel
    dh := p.dh.setStaticKeyPairs (env.hexStrToBytes conf.privateKey)
      (env.hexStrToBytes conf.publicKey)
    sentEchoDatagram := none
    key := none
    encryptLayer := none
    streamMap := .empty }

/-- What a stream of this peer hands to it. -/
def streamEff (p : Peer) (id : UInt32) : StreamEff → Peer
  | .sendDatagram d => p.sendDatagram d
  | .recvData payload => p.put (.recvData id payload)

/-- Stream `id` has become `r.1` and had the effects `r.2`. -/
def putStream (p : Peer) (id : UInt32) (r : Stream × List StreamEff) : Peer :=
  r.2.foldl (fun p e => p.streamEff id e) { p with streamMap := p.streamMap.set id r.1 }

/-- `add_stream`.
mirrors client/sml/peer.cpp:43-51 -/
def addStream (p : Peer) (id : UInt32) : Peer :=
  match p.streamMap.find? id with
  | some _ => p
  | none => { p with streamMap := p.streamMap.insert id (.new id) }

/-- `del_stream`: `erase` returns 0 or 1, so neither message nor exception.
mirrors client/sml/peer.cpp:53-60 -/
def delStream (p : Peer) (id : UInt32) : Peer := { p with streamMap := p.streamMap.erase id }

/-- The stream of a datagram, created at need.
mirrors client/sml/peer.cpp:258-269 -/
def feedStream (p : Peer) (d : Datagram) : Peer :=
  let p :=
    match p.streamMap.find? d.id with
    | some _ => p
    | none => ({ p with streamMap := p.streamMap.insert d.id (.new d.id) } : Peer).put (.newStream d.id)
  match p.streamMap.find? d.id with
  | some s => p.putStream d.id (s.feed d)
  | none => p

/-- `decrypt_payload(*encrypt_layer_)`.
mirrors client/sml/datagram.cpp:68-72 -/
def decryptPayload (p : Peer) (d : Datagram) : Except Exc Datagram :=
  match p.encryptLayer with
  | none => .error .nullDeref
  | some key =>
    if d.payload.length ≠ 0 then
      match env.decrypt key d.payload with
      | .ok payload => .ok { d with payload := payload }
      | .error x => .error x
    else .ok d

/-- mirrors client/sml/peer.cpp:225-270 -/
def establishedHandler (p : Peer) (d : Datagram) : Peer × Option Exc :=
  if ¬ p.currentState.established then (p, some .unknownError)
  else
    match d.type with
    | .hello =>
      let p := p.reset env conf
      let p := { p with currentState := { Bits.initial with receivedHello := true } }
      ((p.sendHello conf).receivedHelloHandler env conf d, none)
    | .echo => (p.receivedEchoHandler d, none)
    | .echoBack => p.receivedEchoBackHandler d
    | .abort => (p.put .delPeer, none)
    | _ =>
      match p.decryptPayload env d with
      | .error x => (p, some x)
      | .ok d => (p.feedStream d, none)

/-! ## Events -/

/-- `datagram_handler_(d)`. -/
def recv (p : Peer) (d : Datagram) (priv : Bytes) : Peer × Option Exc :=
  match p.datagramHandler with
  | .hello => (p.helloHandler env conf d priv, none)
  | .publicKeyExchange => p.publicKeyExchangeHandler env d
  | .echo => p.echoHandler d
  | .established => p.establishedHandler env conf d

/-- The constructor (for an address whose text asio accepts).
mirrors client/sml/peer.cpp:4-41 -/
def new : Peer :=
  sendHello conf {
    currentState := .initial
    datagramHandler := .hello
    timer := .new
    dh := DhKeyAgreement.new.setStaticKeyPairs (env.hexStrToBytes conf.privateKey)
      (env.hexStrToBytes conf.publicKey)
    id := []
    peerSpub := []
    sentEchoDatagram := none
    key := none
    encryptLayer := none
    streamMap := .empty
    out := [] }

inductive Event where
  /-- a datagram reaches `datagram_handler_`; `priv` is the private key drawn if
  one is -/
  | recv (d : Datagram) (priv : Bytes)
  /-- the deadline of `timer_` passes -/
  | expire
  /-- the oldest queued `retransmit_raw_datagram` runs -/
  | retransmit
  | addStream (id : UInt32)
  | delStream (id : UInt32)
  /-- `get_stream(id)->send(data)` -/
  | send (id : UInt32) (data : Bytes)
  /-- the deadline of the timer of stream `id` passes -/
  | streamExpire (id : UInt32)
  /-- the oldest queued `stream::retransmit` of stream `id` runs -/
  | streamRetransmit (id : UInt32)
  deriving DecidableEq

/-- `none`: the event cannot happen now. -/
def handle (p : Peer) : Event → Option (Peer × Option Exc)
  | .recv d priv => some (p.recv env conf d priv)
  | .expire => p.timer.expire.map fun t => ({ p with timer := t }, none)
  | .retransmit => p.timer.fire.map fun r =>
    (({ p with timer := r.2 } : Peer).sendRawDatagramWithRetransmit r.1, none)
  | .addStream id => some (p.addStream id, none)
  | .delStream id => some (p.delStream id, none)
  | .send id data => (p.streamMap.find? id).map fun s => (p.putStream id (s.send data), none)
  | .streamExpire id => (p.streamMap.find? id).bind fun s => s.expire.map fun s =>
    ({ p with streamMap := p.streamMap.set id s }, none)
  | .streamRetransmit id => (p.streamMap.find? id).bind fun s => s.retransmit.map fun r =>
    (p.putStream id r, none)

/-- The calls and timers of streams. -/
def Event.isStream : Event → Bool
  | .recv _ _ | .expire | .retransmit => false
  | _ => true

end

/-! ## Streams and the handshake -/

/-- The raw datagrams among the effects. -/
def rawSends (es : List PeerEff) : List Datagram :=
  es.filterMap fun | .send d => some d | _ => none

/-- The calls of `DH2::Agree` among the effects. -/
def agrees (es : List PeerEff) : List (Bytes × Bytes) :=
  es.filterMap fun | .agree id spub => some (id, spub) | _ => none

@[simp] theorem rawSends_nil : rawSends [] = [] := rfl
@[simp] theorem agrees_nil : agrees [] = [] := rfl
@[simp] theorem rawSends_append (l m : List PeerEff) :
    rawSends (l ++ m) = rawSends l ++ rawSends m := List.filterMap_append
@[simp] theorem agrees_append (l m : List PeerEff) :
    agrees (l ++ m) = agrees l ++ agrees m := List.filterMap_append
section
variable (es : List PeerEff)

@[simp] theorem rawSends_send (d : Datagram) : rawSends (.send d :: es) = d :: rawSends es := rfl
@[simp] theorem agrees_send (d : Datagram) : agrees (.send d :: es) = agrees es := rfl
@[simp] theorem rawSends_agree (id spub : Bytes) :
    rawSends (.agree id spub :: es) = rawSends es := rfl
@[simp] theorem agrees_agree (id spub : Bytes) :
    agrees (.agree id spub :: es) = (id, spub) :: agrees es := rfl
@[simp] theorem rawSends_newPeer (id : Bytes) : rawSends (.newPeer id :: es) = rawSends es := rfl
@[simp] theorem agrees_newPeer (id : Bytes) : agrees (.newPeer id :: es) = agrees es := rfl
@[simp] theorem rawSends_delPeer : rawSends (.delPeer :: es) = rawSends es := rfl

end

/-- `p'` differs from `p` in its streams and in what they have put out. -/
structure SameHandshake (p p' : Peer) : Prop where
  currentState : p'.currentState = p.currentState
  datagramHandler : p'.datagramHandler = p.datagramHandler
  timer : p'.timer = p.timer
  dh : p'.dh = p.dh
  id : p'.id = p.id
  peerSpub : p'.peerSpub = p.peerSpub
  sentEchoDatagram : p'.sentEchoDatagram = p.sentEchoDatagram
  key : p'.key = p.key
  encryptLayer : p'.encryptLayer = p.encryptLayer
  rawSends : rawSends p'.out = rawSends p.out
  agrees : agrees p'.out = agrees p.out

namespace SameHandshake

theorem refl (p : Peer) : SameHandshake p p := ⟨rfl, rfl, rfl, rfl, rfl, rfl, rfl, rfl, rfl, rfl, rfl⟩

theorem trans {p q r : Peer} (h : SameHandshake p q) (h' : SameHandshake q r) :
    SameHandshake p r :=
  ⟨h'.1.trans h.1, h'.2.trans h.2, h'.3.trans h.3, h'.4.trans h.4, h'.5.trans h.5, h'.6.trans h.6,
    h'.7.trans h.7, h'.8.trans h.8, h'.9.trans h.9, h'.10.trans h.10, h'.11.trans h.11⟩

/-- Only streams change. -/
theorem ofStreams (p : Peer) (m : OMap UInt32 Stream) : SameHandshake p { p with streamMap := m } :=
  ⟨rfl, rfl, rfl, rfl, rfl, rfl, rfl, rfl, rfl, rfl, rfl⟩

/-- An effect that is neither a raw datagram nor an agreement. -/
theorem ofPut (p : Peer) {e : PeerEff} (h : Peer.rawSends [e] = []) (h' : Peer.agrees [e] = []) :
    SameHandshake p (p.put e) :=
  ⟨rfl, rfl, rfl, rfl, rfl, rfl, rfl, rfl, rfl, by simp [put, h], by simp [put, h']⟩

end SameHandshake

theorem streamEff_same (p : Peer) (id : UInt32) (e : StreamEff) :
    SameHandshake p (p.streamEff id e) := by
  cases e with
  | sendDatagram d =>
    show SameHandshake p (p.sendDatagram d)
    unfold sendDatagram
    split
    · exact .ofPut p rfl rfl
    · exact .refl p
  | recvData payload => exact .ofPut p rfl rfl

theorem putStream_same (p : Peer) (id : UInt32) (r : Stream × List StreamEff) :
    SameHandshake p (p.putStream id r) := by
  unfold putStream
  generalize hq : ({ p with streamMap := p.streamMap.set id r.1 } : Peer) = q
  have h : SameHandshake p q := hq ▸ .ofStreams p _
  clear hq
  induction r.2 generalizing q with
  | nil => exact h
  | cons e es ih => exact ih _ (h.trans (streamEff_same q id e))

/-- What making the stream and feeding it keep, `feedStream` keeps. -/
theorem feedStream_induct {P : Peer → Prop} {p : Peer} (d : Datagram) (h : P p)
    (hnew : P (({ p with streamMap := p.streamMap.insert d.id (.new d.id) } : Peer).put
      (.newStream d.id)))
    (hput : ∀ q r, P q → P (q.putStream d.id r)) : P (p.feedStream d) := by
  unfold feedStream
  simp only
  split
  · apply hput
    split
    · exact h
    · exact hnew
  · split
    · exact h
    · exact hnew

theorem feedStream_same (p : Peer) (d : Datagram) : SameHandshake p (p.feedStream d) :=
  feedStream_induct d (.refl p) ((SameHandshake.ofStreams p _).trans (.ofPut _ rfl rfl))
    fun _ _ h => h.trans (putStream_same _ _ _)

/-- A stream event leaves the handshake alone. -/
theorem handle_stream_same {env : Env} {conf : Configuration} {p : Peer} {e : Event}
    {r : Peer × Option Exc} (h : p.handle env conf e = some r) (he : e.isStream = true) :
    SameHandshake p r.1 := by
  cases e with
  | recv d priv => cases he
  | expire => cases he
  | retransmit => cases he
  | addStream id =>
    simp only [handle, Option.some.injEq] at h
    subst h
    unfold addStream
    split
    · exact .refl p
    · exact .ofStreams p _
  | delStream id =>
    simp only [handle, Option.some.injEq] at h
    subst h
    exact .ofStreams p _
  | send id data =>
    simp only [handle, Option.map_eq_some_iff] at h
    obtain ⟨s, -, rfl⟩ := h
    exact putStream_same _ _ _
  | streamExpire id =>
    simp only [handle, Option.bind_eq_some_iff, Option.map_eq_some_iff] at h
    obtain ⟨s, -, s', -, rfl⟩ := h
    exact .ofStreams p _
  | streamRetransmit id =>
    simp only [handle, Option.bind_eq_some_iff, Option.map_eq_some_iff] at h
    obtain ⟨s, -, s', -, rfl⟩ := h
    exact putStream_same _ _ _

end Peer
end ShadowTalk.Sml
