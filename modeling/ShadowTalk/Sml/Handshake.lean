import ShadowTalk.Sml.Turn

/-!
# The handshake on its own

`Hs` is what the handshake of a peer depends on: the phase, the four bits that
vary inside a phase, the ephemeral keys and the retransmit timer. Datagrams are
reduced to what the handshake reads (`Msg`). Whether the agreement of an
ephemeral key with a received one succeeds is the parameter `ok`.

* `view_new`, `view_recv`, `view_expire`, `view_retransmit`: a peer whose static
  keys are right computes exactly this machine.
-/
namespace ShadowTalk.Sml
open ShadowTalk.Core

/-- What the handshake reads of a datagram. -/
inductive Msg where
  | hello
  | ack
  | publicKey (k : Bytes)
  | echo (c : Bytes)
  | echoBack (c : Bytes)
  | other
  deriving DecidableEq, Repr

def Msg.of (d : Datagram) : Msg :=
  match d.type with
  | .hello => .hello
  | .ack => .ack
  | .publicKey => .publicKey d.payload
  | .echo => .echo d.payload
  | .echoBack => .echoBack d.payload
  | _ => .other

structure Hs where
  phase : Handler
  receivedHelloAck : Bool
  receivedHello : Bool
  receivedPublicKeyAck : Bool
  receivedPublicKey : Bool
  epriv : Option Bytes
  peerEpub : Option Bytes
  timer : Timer Msg
  out : List Msg
  deriving DecidableEq, Repr

namespace Hs

def put (s : Hs) (m : Msg) : Hs := { s with out := s.out ++ [m] }

def sendWithRetransmit (s : Hs) (m : Msg) : Hs := { s.put m with timer := s.timer.asyncWait m }

def start : Hs :=
  sendWithRetransmit ⟨.hello, false, false, false, false, none, none, .new, []⟩ .hello

section
variable (pub : Bytes → Bytes) (ok : Bytes → Bytes → Bool) (s : Hs) (priv : Bytes)

/-- The hello phase ends when a hello and an acknowledgement are in. -/
def helloComplete : Hs :=
  if s.receivedHelloAck && s.receivedHello then
    let s := { s with epriv := some priv }
    { s.sendWithRetransmit (.publicKey (pub priv)) with phase := .publicKeyExchange }
  else s

/-- The key exchange ends when a key and an acknowledgement are in and the
agreement succeeds. -/
def exchangeComplete : Hs :=
  match s.epriv, s.peerEpub with
  | some e, some q =>
    if s.receivedPublicKey && s.receivedPublicKeyAck && ok e q then
      { s.sendWithRetransmit (.echo Peer.echoContent) with phase := .echo }
    else s
  | _, _ => s

def reset : Hs :=
  let s := { s with
    phase := .hello, receivedHelloAck := false, receivedHello := true
    receivedPublicKeyAck := false, receivedPublicKey := false }
  (s.sendWithRetransmit .hello).put .ack

def recvHello (m : Msg) : Hs :=
  match m with
  | .hello => helloComplete pub (put { s with receivedHello := true } .ack) priv
  | .ack => helloComplete pub { s with receivedHelloAck := true, timer := s.timer.cancel } priv
  | _ => s

def recvPublicKeyExchange (m : Msg) : Hs :=
  match m with
  | .publicKey k =>
    exchangeComplete ok (put { s with peerEpub := some k, receivedPublicKey := true } .ack)
  | .ack => exchangeComplete ok { s with receivedPublicKeyAck := true, timer := s.timer.cancel }
  | .hello => exchangeComplete ok (s.put .ack)
  | _ => exchangeComplete ok s

def recvEcho (m : Msg) : Hs :=
  match m with
  | .echo c => s.put (.echoBack c)
  | .echoBack c =>
    if c = Peer.echoContent then { s with phase := .established, timer := s.timer.cancel } else s
  | .publicKey _ => s.put .ack
  | _ => s

def recvEstablished (m : Msg) : Hs :=
  match m with
  | .hello => s.reset
  | .echo c => s.put (.echoBack c)
  | _ => s

def recv (m : Msg) : Hs :=
  match s.phase with
  | .hello => s.recvHello pub priv m
  | .publicKeyExchange => s.recvPublicKeyExchange ok m
  | .echo => s.recvEcho m
  | .established => s.recvEstablished m

def expire : Option Hs := s.timer.expire.map fun t => { s with timer := t }

def retransmit : Option Hs :=
  s.timer.fire.map fun r => ({ s with timer := r.2 } : Hs).sendWithRetransmit r.1

end
end Hs

namespace Peer

def view (p : Peer) : Hs where
  phase := p.datagramHandler
  receivedHelloAck := p.currentState.receivedHelloAck
  receivedHello := p.currentState.receivedHello
  receivedPublicKeyAck := p.currentState.receivedPublicKeyAck
  receivedPublicKey := p.currentState.receivedPublicKey
  epriv := p.dh.epriv
  peerEpub := p.dh.peerEpub
  timer := p.timer.map Msg.of
  out := (rawSends p.out).map Msg.of

/-- The agreement of `e` with `q` succeeds and is long enough for a key; `spub`
is the static key of the other side. -/
def agreeOk (env : Env) (conf : Configuration) (spub e q : Bytes) : Bool :=
  match env.agree (env.hexStrToBytes conf.privateKey) e spub q with
  | some v => decide (16 ≤ v.length)
  | none => false

/-- The static keys that `p` has taken for the other side are `spub`. -/
structure Knows (spub : Bytes) (p : Peer) : Prop where
  peerSpub : p.currentState.receivedHello = true → p.peerSpub = spub
  dhSpub : p.currentState.receivedPublicKey = true → p.dh.peerSpub = some spub

/-- A hello leads to the static key `spub`. -/
def HelloOf (env : Env) (conf : Configuration) (spub : Bytes) (d : Datagram) : Prop :=
  d.type = .hello → env.hexStrToBytes (conf.getPeerPublicKeyById d.payload) = spub

section
variable {env : Env} {conf : Configuration} {spub : Bytes} {p q : Peer} {d : Datagram}
  {priv : Bytes}

theorem view_same (h : SameHandshake p q) : q.view = p.view := by
  simp only [view, h.currentState, h.datagramHandler, h.dh, h.timer, h.rawSends]

theorem Knows.of_same (hk : Knows spub p) (h : SameHandshake p q) : Knows spub q :=
  ⟨by rw [h.currentState, h.peerSpub]; exact hk.peerSpub,
    by rw [h.currentState, h.dh]; exact hk.dhSpub⟩

@[simp] theorem of_createHello (i : Bytes) : Msg.of (.createHello i) = .hello := rfl
@[simp] theorem of_createPublicKey (k : Bytes) : Msg.of (.createPublicKey k) = .publicKey k := rfl
@[simp] theorem of_createEcho (c : Bytes) : Msg.of (.createEcho c) = .echo c := rfl

theorem view_sendRaw (p : Peer) (d : Datagram) : (p.sendRawDatagram d).view = p.view.put (Msg.of d) := by
  simp [view, sendRawDatagram, put, Hs.put]

theorem view_sendRawWithRetransmit (p : Peer) (d : Datagram) :
    (p.sendRawDatagramWithRetransmit d).view = p.view.sendWithRetransmit (Msg.of d) := by
  simp [view, sendRawDatagramWithRetransmit, sendRawDatagram, put, Hs.sendWithRetransmit, Hs.put,
    Timer.asyncWait, Timer.cancel, Timer.map]

theorem view_new (env : Env) (conf : Configuration) : (new env conf).view = Hs.start := rfl

/-! ### Hello -/

theorem view_receivedHelloHandler (p : Peer) (d : Datagram) :
    (p.receivedHelloHandler env conf d).view = Hs.put { p.view with receivedHello := true } .ack := by
  rw [receivedHelloHandler, sendAck, view_sendRaw]
  rfl

theorem view_helloComplete (hs : p.currentState.sentHello = true) :
    (if p.currentState.helloComplete then p.helloCompleteHandler env priv else p).view =
      Hs.helloComplete env.ephemeralPub p.view priv := by
  have hc : p.currentState.helloComplete =
      (p.currentState.receivedHelloAck && p.currentState.receivedHello) := by
    simp [Bits.helloComplete, hs]
  unfold Hs.helloComplete
  rw [hc]
  by_cases h : (p.currentState.receivedHelloAck && p.currentState.receivedHello) = true
  · rw [if_pos h, if_pos (show (p.view.receivedHelloAck && p.view.receivedHello) = true from h)]
    have hsend := view_sendRawWithRetransmit
      { p with dh := p.dh.generateEphemeralKeyPairs env priv }
      (.createPublicKey (env.ephemeralPub priv))
    rw [of_createPublicKey] at hsend
    show ({ Peer.view _ with phase := .publicKeyExchange } : Hs) = _
    rw [hsend]
    rfl
  · rw [if_neg h, if_neg (show ¬ (p.view.receivedHelloAck && p.view.receivedHello) = true from h)]

theorem view_helloHandler (h : Inv env conf p) (hp : p.datagramHandler = .hello) :
    (p.helloHandler env conf d priv).view =
      p.view.recvHello env.ephemeralPub priv (Msg.of d) := by
  obtain ⟨ha, hr, hb⟩ := h.helloBits hp
  have hs : p.currentState.sentHello = true := by rw [hb]
  unfold helloHandler Msg.of
  cases hd : d.type with
  | hello =>
    refine (view_helloComplete (p := p.receivedHelloHandler env conf d) hs).trans ?_
    rw [view_receivedHelloHandler]
    rfl
  | ack => exact view_helloComplete (p := p.receivedHelloAckHandler) hs
  | _ => rfl

/-! ### Public keys -/

theorem view_receivedPublicKeyHandler (p : Peer) (d : Datagram) :
    (p.receivedPublicKeyHandler d).view =
      Hs.put { p.view with peerEpub := some d.payload, receivedPublicKey := true } .ack := by
  rw [receivedPublicKeyHandler, sendAck, view_sendRaw]
  rfl

theorem view_exchangeComplete (h : Inv env conf p) (hk : Knows spub p)
    (hp : p.datagramHandler = .publicKeyExchange) :
    (if p.currentState.publicKeyExchanged then p.publicKeyExchangeCompleteHandler env
      else (p, none)).1.view = Hs.exchangeComplete (agreeOk env conf spub) p.view := by
  obtain ⟨pa, pr, hb⟩ := h.exchangeBits hp
  obtain ⟨ea, hea⟩ := h.epriv (by rw [hp]; decide)
  have hve : p.view.epriv = some ea := hea
  have hc : p.currentState.publicKeyExchanged = (pr && pa) := by
    rw [hb]; simp [Bits.publicKeyExchanged]
  have hvb : (p.view.receivedPublicKey && p.view.receivedPublicKeyAck) = (pr && pa) := by
    show (p.currentState.receivedPublicKey && p.currentState.receivedPublicKeyAck) = _
    rw [hb]
  unfold Hs.exchangeComplete
  rw [hc, hve]
  by_cases hcc : (pr && pa) = true
  · have hpr : p.currentState.receivedPublicKey = true := by
      rw [hb]; exact (Bool.and_eq_true_iff.1 hcc).1
    obtain ⟨pb, qb, hpb, hqb⟩ := h.peerKeys hpr
    have hspub : pb = spub := Option.some.inj (hpb.symm.trans (hk.dhSpub hpr))
    have hvq : p.view.peerEpub = some qb := hqb
    rw [if_pos hcc, hvq]
    show _ = if (p.view.receivedPublicKey && p.view.receivedPublicKeyAck &&
      agreeOk env conf spub ea qb) = true then _ else _
    rw [hvb, hcc, Bool.true_and]
    unfold publicKeyExchangeCompleteHandler
    rcases generateSharedKey_cases h.spriv hea hpb hqb with ⟨hv, hg⟩ | ⟨v, hv, hlt, hg⟩ |
      ⟨v, k, hv, hle, hkk, hg⟩
    · have hok : agreeOk env conf spub ea qb = false := by
        rw [agreeOk, ← hspub, hv]
      rw [hg, hok, if_neg (by decide)]
      simp [view, put]
    · have hok : agreeOk env conf spub ea qb = false := by
        rw [agreeOk, ← hspub, hv]; exact decide_eq_false (by omega)
      rw [hg, hok, if_neg (by decide)]
      simp [view, put]
    · have hok : agreeOk env conf spub ea qb = true := by
        rw [agreeOk, ← hspub, hv]; exact decide_eq_true hle
      rw [hg, hok, if_pos rfl]
      simp [view, put, sendEcho, sendRawDatagramWithRetransmit, sendRawDatagram,
        Hs.sendWithRetransmit, Hs.put, Timer.asyncWait, Timer.cancel, Timer.map]
  · rw [if_neg hcc]
    show p.view = _
    cases hq : p.view.peerEpub with
    | none => rfl
    | some q =>
      show p.view = if (p.view.receivedPublicKey && p.view.receivedPublicKeyAck &&
        agreeOk env conf spub ea q) = true then _ else _
      rw [hvb, if_neg (by simp [hcc])]

theorem Knows.receivedPublicKeyHandler (h : Inv env conf p) (hk : Knows spub p)
    (hp : p.datagramHandler = .publicKeyExchange) : Knows spub (p.receivedPublicKeyHandler d) := by
  obtain ⟨pa, pr, hb⟩ := h.exchangeBits hp
  exact ⟨hk.peerSpub, fun _ => congrArg some (hk.peerSpub (by rw [hb]))⟩

theorem view_publicKeyExchangeHandler (h : Inv env conf p) (hk : Knows spub p)
    (hp : p.datagramHandler = .publicKeyExchange) :
    (p.publicKeyExchangeHandler env d).1.view =
      p.view.recvPublicKeyExchange (agreeOk env conf spub) (Msg.of d) := by
  unfold publicKeyExchangeHandler Msg.of
  cases hd : d.type with
  | publicKey =>
    refine (view_exchangeComplete (h.receivedPublicKeyHandler hp)
      (hk.receivedPublicKeyHandler h hp) hp).trans ?_
    rw [view_receivedPublicKeyHandler]
    rfl
  | ack =>
    exact view_exchangeComplete (h.receivedPublicKeyAckHandler hp) ⟨hk.peerSpub, hk.dhSpub⟩ hp
  | hello =>
    refine (view_exchangeComplete h.sendAck ⟨hk.peerSpub, hk.dhSpub⟩ hp).trans ?_
    rw [sendAck, view_sendRaw]
    rfl
  | _ => exact view_exchangeComplete h hk hp

/-! ### Echo and established -/

theorem view_echoHandler (h : Inv env conf p) (hp : p.datagramHandler = .echo) :
    (p.echoHandler d).1.view = p.view.recvEcho (Msg.of d) := by
  rw [echoHandler_eq h hp]
  unfold Hs.recvEcho Msg.of
  cases hd : d.type with
  | echo => exact view_sendRaw _ _
  | publicKey => exact view_sendRaw _ _
  | echoBack =>
    by_cases hc : d.payload = echoContent
    · simp [hc, view, put]
    · simp [hc]
  | _ => rfl

theorem view_establishedHandler (h : Inv env conf p) (hp : p.datagramHandler = .established) :
    (p.establishedHandler env conf d).1.view = p.view.recvEstablished (Msg.of d) := by
  unfold establishedHandler Hs.recvEstablished Msg.of
  rw [if_neg (by simp [h.established hp])]
  cases hd : d.type with
  | hello =>
    show (Peer.receivedHelloHandler _ _ _ d).view = _
    rw [view_receivedHelloHandler]
    simp [view, reset, sendHello, sendRawDatagramWithRetransmit, sendRawDatagram, put, Hs.reset,
      Hs.sendWithRetransmit, Hs.put, Timer.asyncWait, Timer.cancel, Timer.map, Bits.initial,
      DhKeyAgreement.setStaticKeyPairs]
  | echo => exact view_sendRaw _ _
  | echoBack =>
    show (p.receivedEchoBackHandler d).1.view = _
    rw [receivedEchoBackHandler_established h hp]
  | abort => simp [view, put]
  | _ =>
    rcases decryptPayload_cases h hp d with ⟨payload, hdec⟩ | hdec
    · simp only [hdec]
      exact view_same (feedStream_same _ _)
    · simp only [hdec]

theorem view_recv (d : Datagram) (priv : Bytes) (h : Inv env conf p) (hk : Knows spub p) :
    (p.recv env conf d priv).1.view =
      p.view.recv env.ephemeralPub (agreeOk env conf spub) priv (Msg.of d) := by
  unfold Peer.recv Hs.recv
  rw [show p.view.phase = p.datagramHandler from rfl]
  cases hp : p.datagramHandler with
  | hello => exact view_helloHandler h hp
  | publicKeyExchange => exact view_publicKeyExchangeHandler h hk hp
  | echo => exact view_echoHandler h hp
  | established => exact view_establishedHandler h hp

theorem view_expire (env : Env) (conf : Configuration) (p : Peer) :
    (p.handle env conf .expire).map (fun r => r.1.view) = p.view.expire := by
  simp only [handle, Hs.expire, view, Timer.map_expire, Option.map_map]
  rfl

theorem view_retransmit (env : Env) (conf : Configuration) (p : Peer) :
    (p.handle env conf .retransmit).map (fun r => r.1.view) = p.view.retransmit := by
  simp only [handle, Hs.retransmit, view, Timer.map_fire, Option.map_map]
  congr 1
  funext r
  simp [sendRawDatagramWithRetransmit, sendRawDatagram, put, Hs.sendWithRetransmit, Hs.put,
    Timer.asyncWait, Timer.cancel, Timer.map]

end
end Peer
end ShadowTalk.Sml
